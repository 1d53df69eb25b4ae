import ArcticPlatform.Packing.RoundTrip

/-!
# Packing: windows of a call

A packed and padded call is split into windows of equal length.  The windows end to
end are the call, and every row is found again: its segments in the windows add up to
its length, and its pieces of the windows end to end are its tokens.

Main results:

- Theorem `shards_cover_call`: the windows cover the call and its rows.
-/

namespace ArcticPlatform.Packing

open Results Slices Tensors List

variable {α ω : Type}

/-! ## Packed and padded calls -/

/-- A call that packing and padding have made. -/
def IsPackedCall [Scalar α] (call : Batch α ω) (metadata : PackMetadata) : Prop :=
  ∃ (data packed : Batch α ω) (packedMetadata : PackMetadata) (multiple : Int),
    packMicrobatch data = .ok (packed, packedMetadata) ∧
    padPackedMicrobatch packed packedMetadata multiple = .ok (call, metadata)

variable {β : Type}

theorem lift_eq_ok {x : Except TensorError β} {r : β} (h : lift x = .ok r) : x = .ok r := by
  cases x with
  | error e => cases h
  | ok y =>
    cases h
    rfl

theorem metadata_of_pack [Scalar α] {data packed : Batch α ω} {metadata : PackMetadata}
    (h : packMicrobatch data = .ok (packed, metadata)) :
    ∃ lengths sequenceLength, metadata = metadataOf lengths sequenceLength := by
  rw [packMicrobatch] at h
  cases hmask : batchTensor data "attention_mask" 2 with
  | none =>
    rw [hmask] at h
    cases h
  | some mask =>
    rw [hmask] at h
    dsimp only at h
    by_cases hndim : mask.ndim ≠ 2
    · rw [if_pos hndim] at h
      cases h
    rw [if_neg hndim] at h
    cases hpositions : batchPositionIds data with
    | none =>
      rw [hpositions] at h
      cases h
    | some positionIds =>
      rw [hpositions] at h
      dsimp only at h
      split_ifs at h
      obtain ⟨index, hindex, h⟩ := bind_eq_ok.mp h
      obtain ⟨packed', -, h⟩ := bind_eq_ok.mp h
      cases h
      obtain ⟨rows, hrows, -⟩ := bind_eq_ok.mp (lift_eq_ok hindex)
      have hnonneg := repeatInterleave_isOk hrows
      -- Lengths that can be repeated are natural numbers.
      let lengths := (mask.items.map fun row => (row.map Scalar.toInt).sum).map Int.toNat
      have hlengths : mask.items.map (fun row => (row.map Scalar.toInt).sum) =
          lengths.map Int.ofNat := by
        rw [map_map]
        conv_lhs => rw [← map_id (mask.items.map _)]
        apply map_congr_left
        intro x hx
        exact (Int.toNat_of_nonneg (hnonneg x hx)).symm
      obtain ⟨b, s, hbs⟩ := length_eq_two.mp (not_not.mp hndim)
      have hcount : lengths.length = b := by
        rw [length_map, length_map, Tensor.length_items hbs]
      refine ⟨lengths, s, ?_⟩
      rw [hlengths, hbs, metadataOf, hcount]
      congr 1
      exact boundaries_getLastD lengths

/-- What is recorded of rows that are packed and padded. -/
structure RecordsRows (metadata : PackMetadata) (lengths : List Nat) (padded : Nat) : Prop where
  batchSize : metadata.batchSize = lengths.length
  validLengths : metadata.validLengths = lengths.map Int.ofNat
  cuSeqlens : metadata.cuSeqlens = boundaries lengths
  paddedTokens : metadata.paddedTokens = padded
  le : lengths.sum ≤ padded
  empty : lengths = [] → padded = 0

theorem IsPackedCall.facts [Scalar α] {call : Batch α ω} {metadata : PackMetadata}
    (h : IsPackedCall call metadata) :
    ∃ (lengths : List Nat) (padded : Nat), RecordsRows metadata lengths padded ∧
      allLeaves (NotUnpadded lengths.sum padded) call := by
  obtain ⟨data, packed, packedMetadata, multiple, hpack, hpad⟩ := h
  obtain ⟨lengths, sequenceLength, rfl⟩ := metadata_of_pack hpack
  by_cases hmultiple : multiple ≤ 0
  · rw [padPackedMicrobatch, if_pos hmultiple] at hpad
    cases hpad
  have hpos : 0 < multiple.toNat := by omega
  obtain ⟨call', hcall', hleaves, -⟩ :=
    padPackedMicrobatch_eq packed lengths sequenceLength (not_le.mp hmultiple)
  rw [hpad] at hcall'
  cases hcall'
  refine ⟨lengths, paddedWidth lengths.sum multiple.toNat, ⟨rfl, rfl, rfl, rfl, le_paddedWidth hpos,
    ?_⟩, hleaves⟩
  rintro rfl
  rw [paddedWidth, sum_nil, zero_add, Nat.div_eq_of_lt (by omega), zero_mul]

/-! ## Boundaries -/

theorem cumsumFrom_getElem? (b : Int) (l : List Int) {k : Nat} (hk : k ≤ l.length) :
    (b :: cumsumFrom b l)[k]? = some (b + (l.take k).sum) := by
  induction l generalizing b k with
  | nil =>
    obtain rfl : k = 0 := by simpa using hk
    simp
  | cons x l ih =>
    cases k with
    | zero => simp
    | succ k =>
      rw [cumsumFrom, getElem?_cons_succ, ih (b + x) (by simpa using hk), take_succ_cons,
        sum_cons, add_assoc]

theorem boundaries_getElem? {lengths : List Nat} {k : Nat} (hk : k ≤ lengths.length) :
    (boundaries lengths)[k]? = some ((lengths.take k).sum : Int) := by
  rw [boundaries, cumsum, cumsumFrom_getElem? 0 _ (by simpa using hk), zero_add, ← map_take,
    sum_ofNat]

theorem length_boundaries (lengths : List Nat) :
    (boundaries lengths).length = lengths.length + 1 := by
  have hlength : ∀ (l : List Int) (b : Int), (cumsumFrom b l).length = l.length := by
    intro l
    induction l with
    | nil => exact fun _ => rfl
    | cons x l ih => exact fun b => congrArg (· + 1) (ih (b + x))
  rw [boundaries, length_cons, cumsum, hlength, length_map]

theorem tokenWindow_eq {n w k : Nat} (hk : k < n) :
    tokenWindow ((n * w : Nat) : Int) n k = .ok (((k * w : Nat) : Int), ((k * w + w : Nat) : Int)) := by
  have hn : (0 : Int) < n := by omega
  have hmod : ((n * w : Nat) : Int) % n = 0 := by simp
  have hdiv : ((n * w : Nat) : Int) / n = w := by
    rw [Nat.cast_mul, Int.mul_ediv_cancel_left _ (by omega)]
  have hdivides : ¬ ((n * w : Nat) : Int) % n ≠ 0 := not_not.mpr hmod
  rw [tokenWindow, if_neg (by omega), if_neg (not_not.mpr ⟨by omega, by omega⟩), if_neg hdivides, hdiv]
  simp

/-! ## Segments of a window -/

section Segments

variable {lengths : List Nat} {metadata : PackMetadata} {n w : Nat}

/-- A boundary, seen from a window. -/
def clamp (w k c : Nat) : Int := min (max (c : Int) (k * w : Nat)) (k * w + w : Nat) - (k * w : Nat)

/-- The boundaries of the rows inside a window. -/
def segmentsOf (lengths : List Nat) (w k : Nat) : List Int :=
  ((range lengths.length).map fun r => clamp w k (lengths.take r).sum) ++ [(w : Int)]

theorem windowCuSeqlens_eq (h : RecordsRows metadata lengths (n * w)) {k : Nat} (hk : k < n) :
    windowCuSeqlens metadata n k = .ok (segmentsOf lengths w k) := by
  have hboundaries : boundaries lengths =
      (range (lengths.length + 1)).map fun r => ((lengths.take r).sum : Int) := by
    apply ext_getElem?
    intro r
    by_cases hr : r ≤ lengths.length
    · rw [boundaries_getElem? hr, getElem?_map, getElem?_range (by omega)]
      rfl
    · rw [getElem?_eq_none (by rw [length_boundaries]; omega), getElem?_eq_none (by simp; omega)]
  rw [windowCuSeqlens, h.paddedTokens, h.cuSeqlens, tokenWindow_eq hk, bind_ok, hboundaries,
    range_succ, map_append, map_append, map_cons, map_cons, map_nil, map_nil]
  dsimp only
  rw [dropLast_concat, map_map]
  congr 3
  simp

theorem clamp_mono (w k : Nat) {c d : Nat} (h : c ≤ d) : clamp w k c ≤ clamp w k d := by
  unfold clamp
  omega

theorem clamp_bounds (w k c : Nat) : 0 ≤ clamp w k c ∧ clamp w k c ≤ w := by
  unfold clamp
  omega

theorem segments_getElem? {k r : Nat} (hr : r < lengths.length) :
    (segmentsOf lengths w k)[r]? = some (clamp w k (lengths.take r).sum) := by
  rw [segmentsOf, getElem?_append_left (by simpa using hr), getElem?_map, getElem?_range hr]
  rfl

theorem segments_getElem?_last {k : Nat} :
    (segmentsOf lengths w k)[lengths.length]? = some (w : Int) := by
  rw [segmentsOf, getElem?_append_right (by simp)]
  simp

/-- A window has one segment per row, from its start to its end. -/
theorem segments_spec (hempty : lengths = [] → w = 0) (k : Nat) :
    (segmentsOf lengths w k).head? = some 0 ∧ (segmentsOf lengths w k).getLast? = some (w : Int) ∧
      (segmentsOf lengths w k).Pairwise (· ≤ ·) ∧
      (segmentsOf lengths w k).length = lengths.length + 1 := by
  refine ⟨?_, by simp [segmentsOf], ?_, by simp [segmentsOf]⟩
  · cases lengths with
    | nil => simp [segmentsOf, hempty rfl]
    | cons m lengths =>
      rw [segmentsOf, length_cons, range_succ_eq_map, map_cons, cons_append,
        head?_cons, take_zero, sum_nil]
      congr 1
      unfold clamp
      omega
  · rw [segmentsOf, pairwise_append]
    refine ⟨?_, pairwise_singleton _ _, ?_⟩
    · rw [pairwise_map]
      apply pairwise_lt_range.imp
      intro i j hij
      exact clamp_mono w k (sum_take_mono lengths (le_of_lt hij))
    · intro x hx y hy
      obtain ⟨r, -, rfl⟩ := mem_map.mp hx
      rw [mem_singleton.mp hy]
      exact (clamp_bounds w k _).2

theorem sum_clamp (w n c : Nat) :
    ((range n).map fun k => clamp w k c).sum = (min c (n * w) : Nat) := by
  induction n with
  | zero => simp
  | succ n ih =>
    have hsucc : (n + 1) * w = n * w + w := Nat.succ_mul n w
    rw [range_succ, map_append, sum_append, ih, map_cons, map_nil, sum_singleton, clamp, hsucc]
    omega

/-- The segments of a row add up to its length, with the tail padding for the last row. -/
theorem sum_segments {padded row : Nat} (hpadded : padded = n * w) (hle : lengths.sum ≤ padded)
    (hrow : row < lengths.length) :
    ((range n).map fun k => (segmentsOf lengths w k).getD (row + 1) 0 -
        (segmentsOf lengths w k).getD row 0).sum =
      lengths.getD row 0 + if row + 1 = lengths.length then (padded : Int) - lengths.sum else 0 := by
  have hsub : ∀ f g : Nat → Int, ((range n).map fun k => f k - g k).sum =
      ((range n).map f).sum - ((range n).map g).sum := by
    intro f g
    induction range n with
    | nil => rfl
    | cons k l ih =>
      simp only [map_cons, sum_cons, ih]
      omega
  have hstart : ∀ k, (segmentsOf lengths w k).getD row 0 = clamp w k (lengths.take row).sum := by
    intro k
    rw [getD_eq_getElem?_getD, segments_getElem? hrow]
    rfl
  have hget : lengths[row]? = some (lengths.getD row 0) := by
    rw [getD_eq_getElem?_getD, getElem?_eq_getElem hrow]
    rfl
  have hnext := sum_take_succ hget
  simp only [hstart]
  rw [hsub, sum_clamp]
  split_ifs with hlast
  · have hstop : ∀ k, (segmentsOf lengths w k).getD (row + 1) 0 = (w : Int) := by
      intro k
      rw [hlast, getD_eq_getElem?_getD, segments_getElem?_last]
      rfl
    have hall : (lengths.take (row + 1)).sum = lengths.sum := by rw [hlast, take_length]
    simp only [hstop]
    rw [map_const', sum_replicate, length_range, nsmul_eq_mul, ← Nat.cast_mul]
    omega
  · have hstop : ∀ k, (segmentsOf lengths w k).getD (row + 1) 0 =
        clamp w k (lengths.take (row + 1)).sum := by
      intro k
      rw [getD_eq_getElem?_getD, segments_getElem? (by omega)]
      rfl
    have htake' := sum_take_le_sum lengths (row + 1)
    simp only [hstop]
    rw [sum_clamp]
    omega

end Segments

/-! ## Pieces of a window -/

theorem slice_slice (l : List β) {a b x y : Nat} (h : a + y ≤ b) :
    slice (slice l a b) x y = slice l (a + x) (a + y) := by
  rw [slice, slice, slice, drop_take, take_take, drop_drop]
  congr 1
  omega

theorem slice_self (l : List β) {a b : Nat} (h : b ≤ a) : slice l a b = [] := by
  rw [slice, Nat.sub_eq_zero_of_le h, take_zero]

section Pieces

variable {t : Tensor α} {rest : List Nat} {n w : Nat}

theorem items_windowRowPiece (ht : t.shape = 1 :: n * w :: rest) {k c d : Nat} (hcd : c ≤ d)
    (hk : k < n) :
    let piece := windowRowPiece (t.sliceTokens (k * w) (k * w + w)).squeeze ((k * w : Nat) : Int)
      ((k * w + w : Nat) : Int) c d
    (∃ m, piece.shape = m :: rest) ∧ piece.items = slice t.squeeze.items
      (min (max c (k * w)) (k * w + w)) (min (max d (k * w)) (k * w + w)) := by
  intro piece
  have hwindow : k * w + w ≤ n * w := by
    have := Nat.mul_le_mul_right w (Nat.succ_le_of_lt hk)
    rw [Nat.succ_mul] at this
    exact this
  have hshape : (t.sliceTokens (k * w) (k * w + w)).squeeze.shape = w :: rest := by
    rw [Tensor.shape_squeeze (Tensor.shape_sliceTokens ht _ _)]
    congr 1
    omega
  have hitems := Tensor.items_squeeze_sliceTokens ht (k * w) (k * w + w)
  have htail : (t.sliceTokens (k * w) (k * w + w)).squeeze.shape.tail = rest := by rw [hshape]; rfl
  simp only [piece, windowRowPiece]
  split_ifs with hempty
  · refine ⟨⟨_, by rw [Tensor.takeItems, Tensor.shape_ofItems, htail]⟩, ?_⟩
    rw [Tensor.takeItems, Tensor.items_ofItems, take_zero, slice_self]
    omega
  · refine ⟨⟨_, by rw [Tensor.sliceItems, Tensor.shape_ofItems, htail]⟩, ?_⟩
    rw [Tensor.sliceItems, Tensor.items_ofItems, hitems, slice_slice _ (by omega)]
    congr 1
    · omega
    · omega

theorem flatMap_slice_windows {β : Type} (l : List β) (w n : Nat) {c d : Nat} (hcd : c ≤ d) :
    ((range n).flatMap fun k => slice l (min (max c (k * w)) (k * w + w))
      (min (max d (k * w)) (k * w + w))) = slice l (min c (n * w)) (min d (n * w)) := by
  induction n with
  | zero => simp [slice]
  | succ n ih =>
    rw [range_succ, flatMap_append, ih, flatMap_cons, flatMap_nil, append_nil, Nat.succ_mul]
    rcases le_total d (n * w) with hd | hd
    · -- The interval ends before the window.
      have hc : c ≤ n * w := le_trans hcd hd
      have hempty : slice l (min (max c (n * w)) (n * w + w)) (min (max d (n * w)) (n * w + w)) = [] :=
        slice_self l (by omega)
      rw [hempty, append_nil]
      congr 1
      · omega
      · omega
    · rcases le_total (n * w) c with hc | hc
      · -- The interval begins in the window or behind it.
        have hempty : slice l (min c (n * w)) (min d (n * w)) = [] := slice_self l (by omega)
        rw [hempty, nil_append, max_eq_left hc, max_eq_left hd]
      · have hfirst : min c (n * w) = c := min_eq_left hc
        have hsecond : min d (n * w) = n * w := min_eq_right hd
        have hthird : min (max c (n * w)) (n * w + w) = n * w := by omega
        rw [hfirst, hsecond, hthird, max_eq_left hd, min_eq_left (by omega : c ≤ n * w + w)]
        exact Tensor.slice_append_slice l hc (by omega)

end Pieces

/-! ## The windows of a call -/

section Shards

variable {lengths : List Nat} {metadata : PackMetadata} {n w padded : Nat}

theorem RecordsRows.last (h : RecordsRows metadata lengths padded) :
    metadata.cuSeqlens.getLastD 0 = lengths.sum := by
  rw [h.cuSeqlens, boundaries_getLastD]

theorem slicedValue_isOk (h : RecordsRows metadata lengths padded) (start stop : Int) (key : String)
    (x : Leaf α ω) (hx : NotUnpadded lengths.sum padded key x) :
    ∃ r, slicedValue metadata start stop key x = .ok r := by
  cases x with
  | other x => exact ⟨_, rfl⟩
  | tensor t =>
    rw [slicedValue, h.paddedTokens, h.last]
    dsimp only
    split_ifs with hndim hwidth hbad
    · exact ⟨_, rfl⟩
    · have := hx hndim (by omega)
      omega
    · exact ⟨_, rfl⟩
    · exact ⟨_, rfl⟩

variable {t : Tensor α} {rest : List Nat}

theorem slicedValue_tokens (h : RecordsRows metadata lengths padded) {a : Nat}
    (ht : t.shape = a :: padded :: rest) (start stop : Nat) (key : String) :
    slicedValue metadata start stop key (.tensor t : Leaf α ω) =
      .ok (some (.tensor (t.sliceTokens start stop))) := by
  have hndim : 2 ≤ t.ndim := by rw [Tensor.ndim, ht]; simp
  rw [slicedValue, if_pos hndim, h.paddedTokens, ht]
  simp

theorem slicedValue_other (h : RecordsRows metadata lengths padded) {start stop : Int}
    {key : String} {x : Leaf α ω} (hx : NotUnpadded lengths.sum padded key x)
    (hwidth : ∀ t a rest, x = .tensor t → t.shape ≠ a :: padded :: rest) :
    slicedValue metadata start stop key x = .ok (some x) := by
  cases x with
  | other x => rfl
  | tensor t =>
    rw [slicedValue, h.paddedTokens, h.last]
    by_cases hndim : 2 ≤ t.ndim
    · have hwide : ¬ ((t.shape.tail.headD 0 : Nat) : Int) = padded := by
        match hshape : t.shape with
        | [] => simp [Tensor.ndim, hshape] at hndim
        | [a] => simp [Tensor.ndim, hshape] at hndim
        | a :: b :: rest =>
          intro hb
          rw [tail_cons, headD_cons, Nat.cast_inj] at hb
          exact hwidth t a rest rfl (by rw [hshape, hb])
      have hnarrow : ¬ (((t.shape.tail.headD 0 : Nat) : Int) = lengths.sum ∧
          (lengths.sum : Int) ≠ padded) := by
        have := hx hndim
        omega
      dsimp only
      rw [if_pos hndim, if_neg hwide, if_neg hnarrow]
    · rw [if_neg hndim]

theorem leafAt_of_allLeaves {P : String → Leaf α ω → Prop} {front : List String} {key : String}
    {batch : Batch α ω} {x : Leaf α ω} (h : allLeaves P batch)
    (hx : leafAt (front ++ [key]) batch = some x) : P key x := by
  have hlookup : ∀ (batch : Batch α ω) (k : String) (v : Value α ω), allLeaves P batch →
      batch.lookup k = some v → v.AllLeaves P k := by
    intro batch k v hall hv
    induction batch with
    | nil => cases hv
    | cons entry batch ih =>
      obtain ⟨k', v'⟩ := entry
      rw [lookup_cons] at hv
      cases hk : k == k' with
      | true =>
        rw [hk] at hv
        cases hv
        rw [beq_iff_eq.mp hk]
        exact hall.1
      | false =>
        rw [hk] at hv
        exact ih hall.2 hv
  induction front generalizing batch with
  | nil =>
    rw [nil_append, leafAt] at hx
    split at hx
    · rename_i y hy
      cases hx
      exact hlookup batch key _ h hy
    · cases hx
  | cons k front ih =>
    rw [leafAt_cons] at hx
    split at hx
    · rename_i entries hentries
      exact ih (hlookup batch k _ h hentries) hx
    · cases hx

theorem windowRowPieces_eq (h : RecordsRows metadata lengths (n * w))
    (ht : t.shape = 1 :: n * w :: rest) {k : Nat} (hk : k < n) :
    windowRowPieces (t.sliceTokens (k * w) (k * w + w)) metadata n k =
      .ok ((range lengths.length).map fun row =>
        windowRowPiece (t.sliceTokens (k * w) (k * w + w)).squeeze ((k * w : Nat) : Int)
          ((k * w + w : Nat) : Int) (lengths.take row).sum (lengths.take (row + 1)).sum) := by
  have hwindow : k * w + w ≤ n * w := by
    have := Nat.mul_le_mul_right w (Nat.succ_le_of_lt hk)
    rw [Nat.succ_mul] at this
    exact this
  have hshape : (t.sliceTokens (k * w) (k * w + w)).shape = 1 :: w :: rest := by
    rw [Tensor.shape_sliceTokens ht]
    congr 2
    omega
  have hndim : 2 ≤ (t.sliceTokens (k * w) (k * w + w)).ndim := by rw [Tensor.ndim, hshape]; simp
  have hwidth : ¬ (((t.sliceTokens (k * w) (k * w + w)).squeeze.shape.headD 0 : Nat) : Int) ≠
      ((k * w + w : Nat) : Int) - ((k * w : Nat) : Int) := by
    rw [Tensor.shape_squeeze hshape, not_not, headD_cons]
    omega
  rw [windowRowPieces, if_neg (by omega), h.paddedTokens, h.batchSize, h.cuSeqlens]
  dsimp only
  rw [if_pos hndim, tokenWindow_eq hk, bind_ok]
  dsimp only
  rw [if_neg hwidth]
  apply mapM_ok
  intro row hrow
  have hrow := mem_range.mp hrow
  rw [boundaries_getElem? (by omega), boundaries_getElem? (by omega)]

/-- The pieces of a row, end to end, are its tokens. -/
theorem catItems_pieces (ht : t.shape = 1 :: n * w :: rest) (hn : 0 < n) (hle : lengths.sum ≤ n * w)
    {row : Nat} (hrow : row < lengths.length) :
    Tensor.catItems ((range n).flatMap fun k =>
      ((range lengths.length).map fun row =>
        windowRowPiece (t.sliceTokens (k * w) (k * w + w)).squeeze ((k * w : Nat) : Int)
          ((k * w + w : Nat) : Int) (lengths.take row).sum
          (lengths.take (row + 1)).sum)[row]?.toList) =
      .ok (t.squeeze.sliceItems (((lengths.take row).sum : Nat) : Int).toNat
        (((lengths.take (row + 1)).sum : Nat) : Int).toNat) := by
  let piece (k : Nat) : Tensor α :=
    windowRowPiece (t.sliceTokens (k * w) (k * w + w)).squeeze ((k * w : Nat) : Int)
      ((k * w + w : Nat) : Int) (lengths.take row).sum (lengths.take (row + 1)).sum
  have hpieces : ((range n).flatMap fun k => ((range lengths.length).map fun row =>
      windowRowPiece (t.sliceTokens (k * w) (k * w + w)).squeeze ((k * w : Nat) : Int)
        ((k * w + w : Nat) : Int) (lengths.take row).sum
        (lengths.take (row + 1)).sum)[row]?.toList) = (range n).map piece := by
    rw [map_eq_flatMap]
    apply flatMap_congr
    intro k _
    rw [getElem?_map, getElem?_range hrow]
    rfl
  have hmono := sum_take_mono lengths (Nat.le_succ row)
  have hspec : ∀ k < n, (∃ m, (piece k).shape = m :: rest) ∧ (piece k).items = slice t.squeeze.items
      (min (max (lengths.take row).sum (k * w)) (k * w + w))
      (min (max (lengths.take (row + 1)).sum (k * w)) (k * w + w)) :=
    fun k hk => items_windowRowPiece ht hmono hk
  have hne : (range n).map piece ≠ [] := by
    rw [ne_eq, map_eq_nil_iff, range_eq_nil]
    omega
  have hshapes : ∀ p ∈ (range n).map piece, ∃ m, p.shape = m :: rest := by
    intro p hp
    obtain ⟨k, hk, rfl⟩ := mem_map.mp hp
    exact (hspec k (mem_range.mp hk)).1
  obtain ⟨t', ht', ⟨m, hshape⟩, hitems⟩ := Tensor.catItems_eq hne hshapes
  rw [hpieces, ht']
  congr 1
  have hsqueeze : t.squeeze.shape = n * w :: rest := Tensor.shape_squeeze ht
  apply Tensor.ext_items hshape (u := t.squeeze.sliceItems _ _)
    (by rw [Tensor.sliceItems, Tensor.shape_ofItems, hsqueeze]; rfl)
  have hstart := le_trans (sum_take_le_sum lengths row) hle
  have hstop := le_trans (sum_take_le_sum lengths (row + 1)) hle
  rw [hitems, flatMap_map, Tensor.sliceItems, Tensor.items_ofItems, Int.toNat_natCast,
    Int.toNat_natCast]
  calc (range n).flatMap (fun k => (piece k).items)
      = (range n).flatMap fun k => slice t.squeeze.items
          (min (max (lengths.take row).sum (k * w)) (k * w + w))
          (min (max (lengths.take (row + 1)).sum (k * w)) (k * w + w)) := by
        apply flatMap_congr
        intro k hk
        exact (hspec k (mem_range.mp hk)).2
    _ = slice t.squeeze.items (lengths.take row).sum (lengths.take (row + 1)).sum := by
        rw [flatMap_slice_windows _ _ _ hmono, min_eq_left hstart, min_eq_left hstop]

end Shards

/-- The windows of a packed and padded call cover it.  End to end they are the call; each has one
segment per row, from its start to its end; the segments of a row add up to the length of the row,
with the tail padding for the last row; and the pieces of a row end to end are its tokens. -/
theorem shards_cover_call [Scalar α] {call : Batch α ω} {metadata : PackMetadata}
    (hcall : IsPackedCall call metadata) {n : Nat} (hn : 0 < n)
    (hdvd : (n : Int) ∣ metadata.paddedTokens) :
    ∃ (w : Nat) (shard : Nat → Batch α ω) (segments : Nat → List Int),
      metadata.paddedTokens = n * w ∧ (∀ k < n, tokenShard call metadata n k = .ok (shard k)) ∧
      (∀ k < n, windowCuSeqlens metadata n k = .ok (segments k)) ∧
      (∀ front key t a rest, leafAt (front ++ [key]) call = some (.tensor t) →
        t.shape = a :: n * w :: rest → ∃ window : Nat → Tensor α,
          (∀ k < n, leafAt (front ++ [key]) (shard k) = some (.tensor (window k))) ∧
          Tensor.catTokens ((range n).map window) = .ok t ∧
          (a = 1 → ∃ pieces : Nat → List (Tensor α),
            (∀ k < n, windowRowPieces (window k) metadata n k = .ok (pieces k)) ∧
            ∀ row < metadata.batchSize, ∃ start stop,
              metadata.cuSeqlens[row]? = some start ∧ metadata.cuSeqlens[row + 1]? = some stop ∧
              Tensor.catItems ((range n).flatMap fun k => (pieces k)[row]?.toList) =
                .ok (t.squeeze.sliceItems start.toNat stop.toNat))) ∧
      (∀ front key x, leafAt (front ++ [key]) call = some x →
        (∀ t a rest, x = .tensor t → t.shape ≠ a :: n * w :: rest) →
        ∀ k < n, leafAt (front ++ [key]) (shard k) = some x) ∧
      (∀ k < n, (segments k).head? = some 0 ∧ (segments k).getLast? = some (w : Int) ∧
        (segments k).Pairwise (· ≤ ·) ∧ (segments k).length = metadata.batchSize + 1) ∧
      (∀ row < metadata.batchSize,
        ((range n).map fun k => (segments k).getD (row + 1) 0 - (segments k).getD row 0).sum =
          metadata.validLengths.getD row 0 + if row + 1 = metadata.batchSize then
            metadata.paddedTokens - metadata.validLengths.sum else 0) := by
  obtain ⟨lengths, padded, hrows, hleaves⟩ := hcall.facts
  rw [hrows.paddedTokens] at hdvd
  obtain ⟨w, rfl⟩ : ∃ w, padded = n * w := Int.natCast_dvd_natCast.mp hdvd
  have hshard : ∀ k, ∃ shard, mapBatchValues (slicedValue metadata ((k * w : Nat) : Int)
      ((k * w + w : Nat) : Int)) call = .ok shard :=
    fun k => mapBatchValues_isOk (slicedValue_isOk hrows _ _) call hleaves
  choose shard hshard using hshard
  refine ⟨w, shard, segmentsOf lengths w, by rw [hrows.paddedTokens]; push_cast; rfl, ?_, ?_, ?_, ?_,
    ?_, ?_⟩
  · intro k hk
    rw [tokenShard, hrows.paddedTokens, tokenWindow_eq hk, bind_ok]
    exact hshard k
  · intro k hk
    exact windowCuSeqlens_eq hrows hk
  · intro front key t a rest hleaf ht
    refine ⟨fun k => t.sliceTokens (k * w) (k * w + w), ?_, ?_, ?_⟩
    · intro k _
      exact leafAt_map (hshard k) hleaf (slicedValue_tokens hrows ht _ _ key)
    · have hcat := Tensor.catTokens_windows ht hn
      simp only [Nat.succ_mul] at hcat
      exact hcat
    · rintro rfl
      refine ⟨_, fun k hk => windowRowPieces_eq hrows ht hk, ?_⟩
      intro row hrow
      rw [hrows.batchSize] at hrow
      rw [hrows.cuSeqlens, boundaries_getElem? (by omega), boundaries_getElem? (by omega)]
      exact ⟨_, _, rfl, rfl, catItems_pieces ht hn hrows.le hrow⟩
  · intro front key x hleaf hwidth k _
    exact leafAt_map (hshard k) hleaf
      (slicedValue_other hrows (leafAt_of_allLeaves hleaves hleaf) hwidth)
  · intro k _
    rw [hrows.batchSize]
    apply segments_spec
    intro hnil
    rcases Nat.mul_eq_zero.mp (hrows.empty hnil) with h | h
    · omega
    · exact h
  · intro row hrow
    rw [hrows.batchSize] at hrow ⊢
    rw [hrows.validLengths, hrows.paddedTokens, sum_ofNat, sum_segments rfl hrows.le hrow,
      getD_eq_getElem?_getD, getD_eq_getElem?_getD, getElem?_map, getElem?_eq_getElem hrow]
    rfl

/-- Four tokens in two rows, padded to six and split into three windows. -/
theorem shards_cover_call_threeWindows :
    ∃ (call : Batch Int Unit) (metadata : PackMetadata), IsPackedCall call metadata ∧
      metadata.paddedTokens = 6 ∧
      ∃ (w : Nat) (shard : Nat → Batch Int Unit) (segments : Nat → List Int),
        metadata.paddedTokens = (3 : Nat) * w ∧
        (∀ k : Nat, k < 3 → tokenShard call metadata (3 : Nat) k = .ok (shard k)) ∧
        (∀ k : Nat, k < 3 → windowCuSeqlens metadata (3 : Nat) k = .ok (segments k)) ∧
        (∀ k < 3, (segments k).head? = some 0 ∧ (segments k).getLast? = some (w : Int) ∧
          (segments k).Pairwise (· ≤ ·) ∧ (segments k).length = 3) ∧
        ∀ row < 2, ((range 3).map fun k =>
          (segments k).getD (row + 1) 0 - (segments k).getD row 0).sum =
            metadata.validLengths.getD row 0 + if row + 1 = 2 then
              metadata.paddedTokens - metadata.validLengths.sum else 0 := by
  obtain ⟨packed, hpack⟩ : ∃ p, packMicrobatch twoRowBatch = .ok (p, metadataOf [3, 1] 3) := ⟨_, rfl⟩
  have hmultiple : (0 : Int) < 3 := by decide
  obtain ⟨call, hpad, -⟩ := padPackedMicrobatch_eq packed [3, 1] 3 hmultiple
  have hcall : IsPackedCall call (paddedMetadata [3, 1] 3 3) :=
    ⟨twoRowBatch, packed, _, 3, hpack, hpad⟩
  have hdvd : ((3 : Nat) : Int) ∣ (paddedMetadata [3, 1] 3 3).paddedTokens := by decide
  obtain ⟨w, shard, segments, hw, hshard, hwindow, -, -, hsegments, hsum⟩ :=
    shards_cover_call hcall (by decide) hdvd
  exact ⟨call, _, hcall, rfl, w, shard, segments, hw, hshard, hwindow, hsegments, hsum⟩

end ArcticPlatform.Packing
