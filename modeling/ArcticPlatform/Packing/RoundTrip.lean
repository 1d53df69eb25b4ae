import ArcticPlatform.Packing.TokenIndex
import ArcticPlatform.Packing.Walk

/-!
# Packing: there and back

A microbatch of rows is packed, padded and unpacked again.  Values come back where
they were, and what a function makes of every token of the packed call comes back as
what it makes of the tokens of the batch.

Main results:

- Theorem `unpack_pad_pack`: the round trip, for values and for functions of
  tokens.
-/

namespace ArcticPlatform.Packing

open Results Slices Tensors List

variable {α ω : Type}

section Mask

variable [Scalar α]

/-- A mask whose rows have as many valid tokens in front as the lengths say. -/
structure LeftAligned (mask : Tensor α) (sequenceLength : Nat) (lengths : List Nat) : Prop where
  shape : mask.shape = [lengths.length, sequenceLength]
  le : ∀ n ∈ lengths, n ≤ sequenceLength
  ints : Forall₂ (fun row n => row.map Scalar.toInt =
    replicate n 1 ++ replicate (sequenceLength - n) 0) mask.items lengths
  bools : Forall₂ (fun row n => row.map Scalar.toBool =
    replicate n true ++ replicate (sequenceLength - n) false) mask.items lengths

/-- What packing records of rows. -/
def metadataOf (lengths : List Nat) (sequenceLength : Nat) : PackMetadata :=
  ⟨lengths.length, sequenceLength, lengths.map Int.ofNat, boundaries lengths, lengths.sum⟩

/-! ## Packing -/

theorem cumsumFrom_getLastD (b : Int) (l : List Int) (d : Int) :
    (b :: cumsumFrom b l).getLastD d = b + l.sum := by
  induction l generalizing b with
  | nil => simp [cumsumFrom]
  | cons x l ih =>
    have := ih (b + x)
    rw [getLastD_cons] at this
    rw [cumsumFrom, getLastD_cons, getLastD_cons, sum_cons, ← add_assoc, ← this]

theorem boundaries_getLastD (lengths : List Nat) : (boundaries lengths).getLastD 0 = lengths.sum := by
  rw [boundaries, cumsum, cumsumFrom_getLastD, sum_ofNat, zero_add]

variable {sequenceLength : Nat} {lengths : List Nat}

theorem LeftAligned.validLengths {mask : Tensor α} (h : LeftAligned mask sequenceLength lengths) :
    mask.items.map (fun row => (row.map Scalar.toInt).sum) = lengths.map Int.ofNat := by
  rw [← forall₂_eq_eq_eq, forall₂_map_left_iff, forall₂_map_right_iff]
  apply h.ints.imp
  intro row n hrow
  rw [hrow]
  simp

theorem LeftAligned.isPrefix {mask : Tensor α} (h : LeftAligned mask sequenceLength lengths) :
    (mask.items.zip (lengths.map Int.ofNat)).all fun p => isPrefixRow p.1 p.2 := by
  rw [all_eq_true]
  intro p hp
  rw [zip_map_right, mem_map] at hp
  obtain ⟨⟨row, n⟩, hp, rfl⟩ := hp
  have hbools := forall₂_zip h.bools hp
  have hrow : row.length = sequenceLength := by
    rw [mask.length_of_mem_items (of_mem_zip hp).1, h.shape]
    simp
  have hn := h.le n (of_mem_zip hp).2
  simp only [Prod.map_apply, id_eq, isPrefixRow, decide_eq_true_iff]
  rw [hbools, hrow]
  apply ext_getElem
  · simp [arange]
    omega
  · intro k h₁ h₂
    rw [getElem_append]
    by_cases hk : k < n
    · simp [arange, hk]
    · simp [arange, hk]

theorem packMicrobatch_eq {data : Batch α ω} {mask positionIds : Tensor α}
    (hmask : batchTensor data "attention_mask" 2 = some mask)
    (haligned : LeftAligned mask sequenceLength lengths)
    (hpositions : batchPositionIds data = some positionIds)
    (hshape : positionIds.shape = [lengths.length, sequenceLength]) :
    packMicrobatch data = (mapBatchValues (packedValue lengths.length sequenceLength
        (lengths.map Int.ofNat) ((tokenIndex lengths sequenceLength).map Int.ofNat)) data >>=
      fun packed => .ok (packed, metadataOf lengths sequenceLength)) := by
  have hndim : mask.ndim = 2 := by rw [Tensor.ndim, haligned.shape]; rfl
  have hpositions' : positionIds.shape.take 2 = mask.shape := by rw [hshape, haligned.shape]; rfl
  rw [packMicrobatch, hmask, hpositions]
  dsimp only
  rw [if_neg (not_not.mpr hndim), if_neg (not_not.mpr hpositions'), haligned.validLengths,
    if_neg (not_not.mpr haligned.isPrefix), haligned.shape]
  have hindex := packedTokenIndex_eq lengths sequenceLength
  rw [boundaries] at hindex
  simp only [headD_cons, tail_cons]
  rw [hindex, lift, bind_ok]
  have hlast := boundaries_getLastD lengths
  rw [boundaries] at hlast
  rw [hlast]
  rfl

end Mask

/-! ## Leaves with a value for every token -/

/-- A leaf with a value for every token: a tensor with rows of tokens, or one value per row where
packing gives it to all tokens of the row.  Values have the shape `rest`. -/
def IsPerToken (key : String) (batchSize sequenceLength : Nat) (t : Tensor α) (rest : List Nat) :
    Prop :=
  key ≠ "attention_mask" ∧ (t.shape = batchSize :: sequenceLength :: rest ∨
    key ∈ rowBroadcastKeys ∧ t.shape = [batchSize] ∧ rest = [])

/-- The value of a leaf at a place of the flattened batch. -/
def tokenValue (t : Tensor α) (sequenceLength j : Nat) : List α :=
  if t.ndim = 1 then t.items.getD (j / sequenceLength) [] else t.tokens.getD j []

variable {lengths : List Nat}

theorem zip_eq_zipIdx {β : Type} {xs : List β} (h : xs.length = lengths.length) (d : β) :
    xs.zip (lengths.map Int.ofNat) =
      lengths.zipIdx.map fun p => (xs.getD p.2 d, Int.ofNat p.1) := by
  apply ext_getElem
  · simp [h]
  · intro k h₁ h₂
    have hk : k < xs.length := by
      rw [length_zip] at h₁
      omega
    simp [getD_eq_getElem?_getD, hk]

variable {sequenceLength : Nat}

theorem map_tokenIndex_div {β : Type} (hle : ∀ n ∈ lengths, n ≤ sequenceLength) (f : Nat → β) :
    (tokenIndex lengths sequenceLength).map (fun j => f (j / sequenceLength)) =
      lengths.zipIdx.flatMap fun p => replicate p.1 (f p.2) := by
  rw [tokenIndex, map_flatMap]
  apply flatMap_congr
  intro p hp
  have hn := hle p.1 (mem_of_getElem? (mem_zipIdx_iff_getElem?.mp hp))
  rw [map_map, eq_replicate_iff]
  refine ⟨by simp, ?_⟩
  intro x hx
  obtain ⟨k, hk, rfl⟩ := mem_map.mp hx
  have hk := mem_range.mp hk
  have hdiv : (p.2 * sequenceLength + k) / sequenceLength = p.2 := by
    rw [add_comm, Nat.add_mul_div_right _ _ (by omega), Nat.div_eq_of_lt (by omega), zero_add]
  simp only [Function.comp_apply, hdiv]

variable {key : String} {t : Tensor α}

theorem packedValue_row (hle : ∀ n ∈ lengths, n ≤ sequenceLength) (hmask : key ≠ "attention_mask")
    (hkey : key ∈ rowBroadcastKeys) (ht : t.shape = [lengths.length]) :
    ∃ t', packedValue lengths.length sequenceLength (lengths.map Int.ofNat)
        ((tokenIndex lengths sequenceLength).map Int.ofNat) key (.tensor t : Leaf α ω) =
          .ok (some (.tensor t')) ∧ t'.shape = [1, lengths.sum] ∧
      t'.tokens = (tokenIndex lengths sequenceLength).map (tokenValue t sequenceLength) := by
  have hsize : t.data.length = lengths.length := by rw [t.size, ht]; simp
  have hany : (lengths.map Int.ofNat).any (· < 0) = false := by simp
  have hitems : t.items = t.data.map ([·]) := by
    rw [Tensor.items, ht]
    simp only [tail_cons, prod_nil, headD_cons, ← hsize]
    exact chunks_one t.data
  have hndim : t.ndim = 1 := by rw [Tensor.ndim, ht]; rfl
  have htoken : tokenValue t sequenceLength = fun j => t.items.getD (j / sequenceLength) [] := by
    funext j
    rw [tokenValue, if_pos hndim]
  have hzip : t.items.zip (lengths.map Int.ofNat) =
      lengths.zipIdx.map fun p => (t.items.getD p.2 [], Int.ofNat p.1) :=
    zip_eq_zipIdx (by rw [hitems, length_map, hsize]) []
  let values := (t.data.zip (lengths.map Int.ofNat)).flatMap fun p => replicate p.2.toNat p.1
  have hvalues : repeatInterleave t.data (lengths.map Int.ofNat) = .ok values := by
    rw [repeatInterleave, hany, if_neg Bool.false_ne_true]
  have hpacked : values.map ([·]) =
      (tokenIndex lengths sequenceLength).map (tokenValue t sequenceLength) := by
    calc values.map ([·])
        = (t.items.zip (lengths.map Int.ofNat)).flatMap fun p => replicate p.2.toNat p.1 := by
          rw [hitems, zip_map_left, flatMap_map, map_flatMap]
          simp only [map_replicate, Prod.map_fst, Prod.map_snd, id_eq]
      _ = lengths.zipIdx.flatMap fun p => replicate p.1 (t.items.getD p.2 []) := by
          rw [hzip, flatMap_map]
          rfl
      _ = (tokenIndex lengths sequenceLength).map (tokenValue t sequenceLength) := by
          rw [htoken]
          exact (map_tokenIndex_div hle fun r => t.items.getD r []).symm
  have hlength : values.length = lengths.sum := by
    have := congrArg List.length hpacked
    rw [length_map, length_map, length_tokenIndex] at this
    exact this
  refine ⟨(Tensor.ofList values).unsqueeze, ?_, ?_, ?_⟩
  · rw [packedValue, if_neg hmask, if_pos ⟨hkey, ht⟩, hvalues, lift, bind_ok]
  · rw [Tensor.shape_unsqueeze, Tensor.shape_ofList, hlength]
  · rw [Tensor.tokens_unsqueeze rfl, ← hpacked, ← chunks_one]
    rfl

variable {rest : List Nat}

section

variable (hle : ∀ n ∈ lengths, n ≤ sequenceLength)
include hle

theorem packedValue_tokens
    (hmask : key ≠ "attention_mask") (ht : t.shape = lengths.length :: sequenceLength :: rest) :
    ∃ t', packedValue lengths.length sequenceLength (lengths.map Int.ofNat)
        ((tokenIndex lengths sequenceLength).map Int.ofNat) key (.tensor t : Leaf α ω) =
          .ok (some (.tensor t')) ∧ t'.shape = 1 :: lengths.sum :: rest ∧
      t'.tokens = (tokenIndex lengths sequenceLength).map (tokenValue t sequenceLength) := by
  have hndim : 2 ≤ t.ndim := by rw [Tensor.ndim, ht]; simp
  have hrow : ¬ (key ∈ rowBroadcastKeys ∧ t.shape = [lengths.length]) := by
    rintro ⟨-, hshape⟩
    rw [ht] at hshape
    cases hshape
  have htake : 2 ≤ t.ndim ∧ t.shape.take 2 = [lengths.length, sequenceLength] :=
    ⟨hndim, by rw [ht]; rfl⟩
  have hrange : ∀ i ∈ (tokenIndex lengths sequenceLength).map Int.ofNat,
      0 ≤ i ∧ i.toNat < lengths.length * sequenceLength := by
    intro i hi
    obtain ⟨j, hj, rfl⟩ := mem_map.mp hi
    exact ⟨Int.natCast_nonneg _, tokenIndex_lt hle hj⟩
  obtain ⟨rows, hrows, hrowsShape, hrowsItems⟩ := Tensor.reshape_tokens ht
  obtain ⟨packed, hpacked, hpackedShape, hpackedItems⟩ := Tensor.indexSelect_items hrowsShape hrange
  refine ⟨packed.unsqueeze, ?_, ?_, ?_⟩
  · rw [packedValue, if_neg hmask, if_neg hrow, if_pos htake]
    have hdrop : t.shape.drop 2 = rest := by rw [ht]; rfl
    rw [hdrop, hrows, lift, bind_ok, hpacked, lift, bind_ok]
  · rw [Tensor.shape_unsqueeze, hpackedShape, length_map, length_tokenIndex]
  · rw [Tensor.tokens_unsqueeze hpackedShape, hpackedItems, hrowsItems, map_map]
    apply map_congr_left
    intro j _
    rw [Function.comp_apply, tokenValue, if_neg (by omega)]
    rfl

theorem packedValue_eq (ht : IsPerToken key lengths.length sequenceLength t rest) :
    ∃ t', packedValue lengths.length sequenceLength (lengths.map Int.ofNat)
        ((tokenIndex lengths sequenceLength).map Int.ofNat) key (.tensor t : Leaf α ω) =
          .ok (some (.tensor t')) ∧ t'.shape = 1 :: lengths.sum :: rest ∧
      t'.tokens = (tokenIndex lengths sequenceLength).map (tokenValue t sequenceLength) := by
  obtain ⟨hmask, hshape | ⟨hkey, hshape, rfl⟩⟩ := ht
  · exact packedValue_tokens hle hmask hshape
  · exact packedValue_row hle hmask hkey hshape

theorem packedValue_isOk (key : String) (x : Leaf α ω) :
    ∃ r, packedValue lengths.length sequenceLength (lengths.map Int.ofNat)
      ((tokenIndex lengths sequenceLength).map Int.ofNat) key x = .ok r := by
  cases x with
  | other x =>
    rw [packedValue]
    split_ifs
    · exact ⟨_, rfl⟩
    · exact ⟨_, rfl⟩
  | tensor t =>
    by_cases hmask : key = "attention_mask"
    · exact ⟨none, by rw [packedValue, if_pos hmask]⟩
    by_cases hrow : key ∈ rowBroadcastKeys ∧ t.shape = [lengths.length]
    · obtain ⟨t', ht', -⟩ := packedValue_row (ω := ω) hle hmask hrow.1 hrow.2
      exact ⟨_, ht'⟩
    by_cases htake : 2 ≤ t.ndim ∧ t.shape.take 2 = [lengths.length, sequenceLength]
    · have hshape : t.shape = lengths.length :: sequenceLength :: t.shape.drop 2 := by
        conv_lhs => rw [← take_append_drop 2 t.shape, htake.2]
        rfl
      obtain ⟨t', ht', -⟩ := packedValue_tokens (ω := ω) hle hmask hshape
      exact ⟨_, ht'⟩
    · exact ⟨_, by rw [packedValue, if_neg hmask, if_neg hrow, if_neg htake]⟩

end

/-! ## Padding -/

/-- The width of a padded call. -/
def paddedWidth (tokens multiple : Nat) : Nat := ((tokens + multiple - 1) / multiple) * multiple

theorem le_paddedWidth {tokens multiple : Nat} (h : 0 < multiple) :
    tokens ≤ paddedWidth tokens multiple := by
  have hmod := Nat.mod_lt (tokens + multiple - 1) h
  have hdiv := Nat.div_add_mod (tokens + multiple - 1) multiple
  rw [mul_comm] at hdiv
  rw [paddedWidth]
  omega

/-- What padding records. -/
def paddedMetadata (lengths : List Nat) (sequenceLength multiple : Nat) : PackMetadata :=
  { metadataOf lengths sequenceLength with paddedTokens := paddedWidth lengths.sum multiple }

theorem paddedValue_isOk [Scalar α] (currentTokens padTokens : Int) (key : String) (x : Leaf α ω) :
    ∃ r, paddedValue currentTokens padTokens key x = .ok r := by
  cases x with
  | other x => exact ⟨_, rfl⟩
  | tensor t =>
    rw [paddedValue]
    split_ifs
    · exact ⟨_, rfl⟩
    · exact ⟨_, rfl⟩

/-- A leaf that is not left at the width before padding. -/
def NotUnpadded (tokens padded : Nat) (_key : String) : Leaf α ω → Prop
  | .tensor t => 2 ≤ t.ndim → t.shape.tail.headD 0 = tokens → tokens = padded
  | .other _ => True

theorem notUnpadded_paddedValue [Scalar α] {tokens padded : Nat} (hle : tokens ≤ padded)
    (key : String) (x x' : Leaf α ω)
    (h : paddedValue (tokens : Int) ((padded : Int) - tokens) key x = .ok (some x')) :
    NotUnpadded tokens padded key x' := by
  cases x with
  | other x =>
    cases h
    exact trivial
  | tensor t =>
    rw [paddedValue] at h
    split_ifs at h with hpad
    · cases h
      intro _ htokens
      obtain ⟨hndim, hwidth⟩ := hpad
      match hshape : t.shape with
      | [] => simp [Tensor.ndim, hshape] at hndim
      | [a] => simp [Tensor.ndim, hshape] at hndim
      | a :: b :: rest =>
        rw [hshape] at hwidth
        rw [Tensor.shape_padTokens hshape] at htokens
        simp only [tail_cons, headD_cons] at hwidth htokens
        omega
    · cases h
      intro hndim htokens
      exact absurd ⟨hndim, by rw [htokens]⟩ hpad

/-- Padding a call: a leaf with the width of the call gets tokens behind it, another leaf stays. -/
theorem padPackedMicrobatch_eq [Scalar α] (packed : Batch α ω) (lengths : List Nat)
    (sequenceLength : Nat) {multiple : Int} (hmultiple : 0 < multiple) :
    ∃ call, padPackedMicrobatch packed (metadataOf lengths sequenceLength) multiple =
        .ok (call, paddedMetadata lengths sequenceLength multiple.toNat) ∧
      allLeaves (NotUnpadded lengths.sum (paddedWidth lengths.sum multiple.toNat)) call ∧
      ∀ path key t, leafAt (path ++ [key]) packed = some (.tensor t) →
        ∀ rest, t.shape = 1 :: lengths.sum :: rest →
        ∃ t', leafAt (path ++ [key]) call = some (.tensor t') ∧
          t'.shape = 1 :: paddedWidth lengths.sum multiple.toNat :: rest ∧
          t'.tokens = t.tokens ++ replicate
            (paddedWidth lengths.sum multiple.toNat - lengths.sum)
            (replicate rest.prod (Scalar.ofInt (sequencePadValue key))) := by
  have hwidth : (((metadataOf lengths sequenceLength).paddedTokens + multiple - 1) / multiple) *
      multiple = (paddedWidth lengths.sum multiple.toNat : Int) := by
    have hcast : ((multiple.toNat : Nat) : Int) = multiple := Int.toNat_of_nonneg (by omega)
    have hsub : ((lengths.sum + multiple.toNat - 1 : Nat) : Int) = lengths.sum + multiple - 1 := by
      omega
    rw [metadataOf, paddedWidth, Nat.cast_mul, Int.natCast_ediv, hsub, hcast]
  have hle : lengths.sum ≤ paddedWidth lengths.sum multiple.toNat := le_paddedWidth (by omega)
  have hcurrent : (metadataOf lengths sequenceLength).paddedTokens = (lengths.sum : Int) := rfl
  rw [padPackedMicrobatch, if_neg (by omega)]
  dsimp only
  rw [hwidth, hcurrent]
  split_ifs with heq
  · have heq : paddedWidth lengths.sum multiple.toNat = lengths.sum := by exact_mod_cast heq
    refine ⟨packed, ?_, ?_, ?_⟩
    · rw [paddedMetadata, heq]
      rfl
    · apply allLeaves_true
      intro key x
      cases x with
      | other x => exact trivial
      | tensor t => exact fun _ _ => heq.symm
    · intro path key t ht rest hshape
      exact ⟨t, ht, by rw [heq, hshape], by rw [heq]; simp⟩
  · obtain ⟨call, hcall⟩ := mapBatchValues_isOk (fun key x _ => paddedValue_isOk _ _ key x) packed
      (allLeaves_true (fun _ _ => trivial) packed)
    refine ⟨call, by rw [hcall]; rfl, allLeaves_map (notUnpadded_paddedValue hle) _ _ hcall, ?_⟩
    intro path key t ht rest hshape
    have hpad : 2 ≤ t.ndim ∧ ((t.shape.tail.headD 0 : Nat) : Int) = (lengths.sum : Int) := by
      rw [Tensor.ndim, hshape]
      simp
    have htoNat : ((paddedWidth lengths.sum multiple.toNat : Int) - lengths.sum).toNat =
        paddedWidth lengths.sum multiple.toNat - lengths.sum := by omega
    refine ⟨_, leafAt_map hcall ht (by rw [paddedValue, if_pos hpad]), ?_, ?_⟩
    · rw [Tensor.shape_padTokens hshape, htoNat, Nat.add_sub_cancel' hle]
    · rw [Tensor.tokens_padTokens hshape, htoNat]

/-! ## Unpacking -/

theorem boundaries_diff (lengths : List Nat) :
    zipWith (· - ·) (boundaries lengths).tail (boundaries lengths) = lengths.map Int.ofNat := by
  have hdiff : ∀ (l : List Int) (b : Int),
      zipWith (· - ·) (cumsumFrom b l) (b :: cumsumFrom b l) = l := by
    intro l
    induction l with
    | nil => intro b; rfl
    | cons x l ih =>
      intro b
      rw [cumsumFrom, zipWith_cons_cons, ih, add_sub_cancel_left]
  exact hdiff _ 0

/-- Unpacking a call whose tokens are a function of their places in the batch. -/
theorem unpackOutput_eq {sequenceLength multiple : Nat} (hmultiple : 0 < multiple)
    (hle : ∀ n ∈ lengths, n ≤ sequenceLength) {u : Tensor α}
    (hshape : u.shape = 1 :: paddedWidth lengths.sum multiple :: rest) {g : Nat → List α}
    (hg : u.tokens.take lengths.sum = (tokenIndex lengths sequenceLength).map g) (padValue : α) :
    ∃ out, unpackOutput u (paddedMetadata lengths sequenceLength multiple) padValue = .ok out ∧
      out.shape = lengths.length :: sequenceLength :: rest ∧
      ∀ r s, r < lengths.length → s < sequenceLength →
        out.tokens[r * sequenceLength + s]? = some (if s < lengths.getD r 0 then
          g (r * sequenceLength + s) else replicate rest.prod padValue) := by
  have hndim : 2 ≤ u.ndim := by rw [Tensor.ndim, hshape]; simp
  have hsqueeze : u.squeeze.shape = paddedWidth lengths.sum multiple :: rest :=
    Tensor.shape_squeeze hshape
  have hlengths : ¬ (lengths.map Int.ofNat).length ≠ lengths.length := not_not.mpr (length_map _)
  have hdiff : ¬ zipWith (· - ·) (boundaries lengths).tail (boundaries lengths) ≠
      lengths.map Int.ofNat := not_not.mpr (boundaries_diff lengths)
  have hany : ¬ ((lengths.map Int.ofNat).any fun n => n < 0 ∨ (sequenceLength : Int) < n) := by
    rw [any_eq_true]
    rintro ⟨i, hi, hbad⟩
    obtain ⟨n, hn, rfl⟩ := mem_map.mp hi
    have := hle n hn
    simp only [Int.ofNat_eq_natCast, decide_eq_true_iff] at hbad
    omega
  let output := Tensor.full (lengths.length * sequenceLength :: rest) padValue
  have houtput : output.items = replicate (lengths.length * sequenceLength)
      (replicate rest.prod padValue) := Tensor.items_full _ _ _
  have hmetadata : paddedMetadata lengths sequenceLength multiple = ⟨lengths.length, sequenceLength,
      lengths.map Int.ofNat, boundaries lengths, paddedWidth lengths.sum multiple⟩ := rfl
  rw [hmetadata, unpackOutput]
  dsimp only
  rw [if_neg hlengths, if_pos hndim, hsqueeze]
  simp only [tail_cons]
  by_cases hzero : lengths.length = 0
  · -- There are no rows.
    obtain ⟨out, hout, houtShape, -⟩ :=
      Tensor.reshape_items (t := output) (a := lengths.length) (b := sequenceLength) rfl
    refine ⟨out, by rw [if_pos hzero, hout]; rfl, houtShape, ?_⟩
    intro r s hr
    omega
  · have hsource : (u.squeeze.takeItems lengths.sum).shape = lengths.sum :: rest ∧
        (u.squeeze.takeItems lengths.sum).items = (tokenIndex lengths sequenceLength).map g := by
      have hwidth : lengths.sum ≤ paddedWidth lengths.sum multiple := le_paddedWidth hmultiple
      refine ⟨?_, ?_⟩
      · rw [Tensor.takeItems, Tensor.shape_ofItems, length_take, Tensor.length_items hsqueeze,
          hsqueeze, min_eq_left hwidth]
        rfl
      · rw [Tensor.takeItems, Tensor.items_ofItems, ← Tensor.tokens_eq_items hshape, hg]
    have hrange : ∀ i ∈ (tokenIndex lengths sequenceLength).map Int.ofNat,
        0 ≤ i ∧ i.toNat < lengths.length * sequenceLength := by
      intro i hi
      obtain ⟨j, hj, rfl⟩ := mem_map.mp hi
      exact ⟨Int.natCast_nonneg _, tokenIndex_lt hle hj⟩
    have hsourceShape : (u.squeeze.takeItems lengths.sum).shape =
        ((tokenIndex lengths sequenceLength).map Int.ofNat).length :: rest := by
      rw [hsource.1, length_map, length_tokenIndex]
    obtain ⟨copied, hcopied, hcopiedShape, hcopiedItems⟩ :=
      Tensor.indexCopy_items (t := output) rfl hsourceShape hrange
    obtain ⟨out, hout, houtShape, houtTokens⟩ := Tensor.reshape_items hcopiedShape
    refine ⟨out, ?_, houtShape, ?_⟩
    · rw [if_neg hzero, if_neg hany, if_neg hdiff, packedTokenIndex_eq,
        lift, bind_ok, length_map, length_tokenIndex, hcopied, lift, bind_ok, hout]
      rfl
    · intro r s hr hs
      have hvalues : ((tokenIndex lengths sequenceLength).map Int.ofNat).zip
          ((tokenIndex lengths sequenceLength).map g) =
          (tokenIndex lengths sequenceLength).map fun j => (Int.ofNat j, g j) := zip_map'
      have hplace : r * sequenceLength + s < lengths.length * sequenceLength := by
        have := Nat.mul_le_mul_right sequenceLength (Nat.succ_le_of_lt hr)
        rw [Nat.succ_mul] at this
        omega
      have hfunction : ∀ p ∈ (tokenIndex lengths sequenceLength).map fun j => (Int.ofNat j, g j),
          p.2 = g p.1.toNat := by
        intro p hp
        obtain ⟨j, -, rfl⟩ := mem_map.mp hp
        rfl
      have hplaces : ((tokenIndex lengths sequenceLength).map fun j => (Int.ofNat j, g j)).map
          (·.1.toNat) = tokenIndex lengths sequenceLength := by
        rw [map_map]
        exact map_id' _
      rw [houtTokens, hcopiedItems, hsource.2, hvalues, Tensor.getElem?_copyItems hfunction, hplaces,
        houtput, length_replicate]
      simp only [mem_tokenIndex hle hs, hplace, and_true]
      split_ifs with hvalid
      · rfl
      · rw [getElem?_replicate, if_pos hplace]

/-! ## Selecting rows -/

section Select

variable {index : List Int} {n : Nat}

section

variable (hindex : ∀ i ∈ index, 0 ≤ i ∧ i.toNat < n)
include hindex

theorem selected_eq (key : String) {t : Tensor α} {rest : List Nat} (ht : t.shape = n :: rest) :
    ∃ t', selected index n key (.tensor t : Leaf α ω) = .ok (some (.tensor t')) ∧
      t'.shape = index.length :: rest ∧ t'.items = index.map fun i => t.items.getD i.toNat [] := by
  obtain ⟨t', ht', hshape, hitems⟩ := Tensor.indexSelect_items ht hindex
  refine ⟨t', ?_, hshape, hitems⟩
  rw [selected, if_pos (by rw [ht]; rfl), ht', lift, bind_ok]

theorem selected_isOk (key : String) (x : Leaf α ω) : ∃ r, selected index n key x = .ok r := by
  cases x with
  | other x => exact ⟨_, rfl⟩
  | tensor t =>
    by_cases hhead : t.shape.head? = some n
    · obtain ⟨rest, hrest⟩ := head?_eq_some_iff.mp hhead
      obtain ⟨t', ht', -⟩ := selected_eq (ω := ω) hindex key hrest
      exact ⟨_, ht'⟩
    · exact ⟨_, by rw [selected, if_neg hhead]⟩

theorem selected_keepsAxes :
    KeepsAxes (selected index n : String → Leaf α ω → _) where
  tensor key t r hr := by
    by_cases hhead : t.shape.head? = some n
    · obtain ⟨rest, hrest⟩ := head?_eq_some_iff.mp hhead
      obtain ⟨t', ht', hshape, -⟩ := selected_eq (ω := ω) hindex key hrest
      rw [ht'] at hr
      cases hr
      exact ⟨t', rfl, by rw [Tensor.ndim, Tensor.ndim, hshape, hrest]; rfl⟩
    · rw [selected, if_neg hhead] at hr
      cases hr
      exact ⟨t, rfl, rfl⟩
  other key x r hr := by
    cases hr
    exact ⟨x, rfl⟩

end

/-- The lengths of selected rows. -/
def selectedLengths (lengths : List Nat) (index : List Int) : List Nat :=
  index.map fun i => lengths.getD i.toNat 0

theorem LeftAligned.selected [Scalar α] {mask mask' : Tensor α} {sequenceLength : Nat}
    {lengths : List Nat} (h : LeftAligned mask sequenceLength lengths)
    (hindex : ∀ i ∈ index, 0 ≤ i ∧ i.toNat < lengths.length)
    (hshape : mask'.shape = [index.length, sequenceLength])
    (hitems : mask'.items = index.map fun i => mask.items.getD i.toNat []) :
    LeftAligned mask' sequenceLength (selectedLengths lengths index) := by
  have hget : ∀ {R : List α → Nat → Prop}, Forall₂ R mask.items lengths →
      Forall₂ R mask'.items (selectedLengths lengths index) := by
    intro R hR
    rw [hitems, selectedLengths, forall₂_map_left_iff, forall₂_map_right_iff, forall₂_same]
    intro i hi
    have hlt := (hindex i hi).2
    have hlt' : i.toNat < mask.items.length := by rw [hR.length_eq]; exact hlt
    rw [getD_eq_getElem?_getD, getD_eq_getElem?_getD, getElem?_eq_getElem hlt,
      getElem?_eq_getElem hlt']
    exact hR.get hlt' hlt
  refine ⟨?_, ?_, hget h.ints, hget h.bools⟩
  · rw [hshape, selectedLengths, length_map]
  · intro m hm
    obtain ⟨i, hi, rfl⟩ := mem_map.mp hm
    rw [getD_eq_getElem?_getD, getElem?_eq_getElem (hindex i hi).2]
    exact h.le _ (getElem_mem _)

theorem IsPerToken.selected {key : String} {sequenceLength : Nat} {t : Tensor α} {rest : List Nat}
    (ht : IsPerToken key n sequenceLength t rest) (hindex : ∀ i ∈ index, 0 ≤ i ∧ i.toNat < n) :
    ∃ t', Packing.selected index n key (.tensor t : Leaf α ω) = .ok (some (.tensor t')) ∧
      IsPerToken key index.length sequenceLength t' rest ∧
      ∀ i s (hi : i < index.length), s < sequenceLength →
        tokenValue t' sequenceLength (i * sequenceLength + s) =
          tokenValue t sequenceLength (index[i].toNat * sequenceLength + s) := by
  obtain ⟨hmask, hshape | ⟨hkey, hshape, rfl⟩⟩ := ht
  · obtain ⟨t', ht', hshape', hitems⟩ := selected_eq (ω := ω) hindex key hshape
    refine ⟨t', ht', ⟨hmask, .inl hshape'⟩, ?_⟩
    intro i s hi hs
    have hndim : t.ndim ≠ 1 ∧ t'.ndim ≠ 1 := by
      rw [Tensor.ndim, Tensor.ndim, hshape, hshape']
      simp
    have hrow := (hindex index[i] (getElem_mem hi)).2
    have hlt : index[i].toNat < t.items.length := by rw [Tensor.length_items hshape]; exact hrow
    rw [tokenValue, tokenValue, if_neg hndim.1, if_neg hndim.2, getD_eq_getElem?_getD,
      getD_eq_getElem?_getD, Tensor.getElem?_tokens hshape hs, Tensor.getElem?_tokens hshape' hs,
      hitems, getElem?_map, getElem?_eq_getElem hi, getElem?_eq_getElem hlt]
    simp [getD_eq_getElem?_getD, hlt]
  · obtain ⟨t', ht', hshape', hitems⟩ := selected_eq (ω := ω) hindex key hshape
    refine ⟨t', ht', ⟨hmask, .inr ⟨hkey, hshape', rfl⟩⟩, ?_⟩
    intro i s hi hs
    have hndim : t.ndim = 1 ∧ t'.ndim = 1 := by
      rw [Tensor.ndim, Tensor.ndim, hshape, hshape']
      exact ⟨rfl, rfl⟩
    have hdiv : ∀ r, (r * sequenceLength + s) / sequenceLength = r := by
      intro r
      rw [add_comm, Nat.add_mul_div_right _ _ (by omega), Nat.div_eq_of_lt hs, zero_add]
    rw [tokenValue, tokenValue, if_pos hndim.1, if_pos hndim.2, hdiv, hdiv, hitems,
      getD_eq_getElem?_getD, getElem?_map, getElem?_eq_getElem hi]
    rfl

end Select

/-! ## The round trip -/

/-- The keys lead to a leaf with a value for every token. -/
def PerTokenPath (batch : Batch α ω) (nRows sequenceLength : Nat) (path : List String) : Prop :=
  ∃ front key t rest, path = front ++ [key] ∧ leafAt path batch = some (.tensor t) ∧
    IsPerToken key nRows sequenceLength t rest

/-- The value of a leaf of a batch at a row and a position. -/
def batchToken (batch : Batch α ω) (sequenceLength : Nat) (path : List String) (r s : Nat) : List α :=
  match leafAt path batch with
  | some (.tensor t) => tokenValue t sequenceLength (r * sequenceLength + s)
  | _ => []

/-- The value of a leaf of a packed call at a token. -/
def callToken (call : Batch α ω) (path : List String) (k : Nat) : List α :=
  match leafAt path call with
  | some (.tensor t) => t.tokens.getD k []
  | _ => []

/-- A tensor has the values of the selected rows at their valid positions, and padding elsewhere. -/
structure RestoredAs (out : Tensor α) (index : List Int) (lengths : List Nat) (sequenceLength : Nat)
    (rest : List Nat) (padValue : α) (value : Nat → Nat → List α) : Prop where
  shape : out.shape = index.length :: sequenceLength :: rest
  tokens : ∀ i s (hi : i < index.length), s < sequenceLength →
    out.tokens[i * sequenceLength + s]? = some (if s < lengths.getD index[i].toNat 0 then
      value index[i].toNat s else replicate rest.prod padValue)

section RoundTrip

variable [Scalar α] {batch : Batch α ω} {mask positionIds : Tensor α} {sequenceLength : Nat}
  {lengths : List Nat} {index : List Int} {multiple : Int}

/-- The calls that packing and padding make of selected rows. -/
theorem call_of_select (hmask : batchTensor batch "attention_mask" 2 = some mask)
    (haligned : LeftAligned mask sequenceLength lengths)
    (hpositions : batchPositionIds batch = some positionIds)
    (hshape : positionIds.shape = [lengths.length, sequenceLength])
    (hindex : ∀ i ∈ index, 0 ≤ i ∧ i.toNat < lengths.length) (hmultiple : 0 < multiple) :
    ∃ microbatch packed call, selectRows batch index lengths.length = .ok microbatch ∧
      packMicrobatch microbatch =
        .ok (packed, metadataOf (selectedLengths lengths index) sequenceLength) ∧
      padPackedMicrobatch packed (metadataOf (selectedLengths lengths index) sequenceLength) multiple =
        .ok (call, paddedMetadata (selectedLengths lengths index) sequenceLength multiple.toNat) ∧
      ∀ front key t rest, leafAt (front ++ [key]) batch = some (.tensor t) →
        IsPerToken key lengths.length sequenceLength t rest →
        ∃ t' g, leafAt (front ++ [key]) call = some (.tensor t') ∧
          t'.shape = 1 :: paddedWidth (selectedLengths lengths index).sum multiple.toNat :: rest ∧
          t'.tokens.take (selectedLengths lengths index).sum =
            (tokenIndex (selectedLengths lengths index) sequenceLength).map g ∧
          ∀ i s (hi : i < index.length), s < sequenceLength → g (i * sequenceLength + s) =
            tokenValue t sequenceLength (index[i].toNat * sequenceLength + s) := by
  obtain ⟨microbatch, hselect⟩ := mapBatchValues_isOk (fun key x _ => selected_isOk hindex key x) batch
    (allLeaves_true (fun _ _ => trivial) batch)
  -- The mask and the positions of the microbatch.
  obtain ⟨mask₁, hmask₁, hlookup₁⟩ := batchTensor_map (selected_keepsAxes hindex) hselect hmask
  obtain ⟨mask₂, hmask₂, hmaskShape, hmaskItems⟩ :=
    selected_eq (ω := ω) hindex "attention_mask" haligned.shape
  rw [hmask₁] at hmask₂
  cases hmask₂
  have haligned' := haligned.selected hindex hmaskShape hmaskItems
  obtain ⟨hpositions, -⟩ := Option.filter_eq_some_iff.mp hpositions
  obtain ⟨pos₁, hpos₁, hlookup₂⟩ := batchTensor_map (selected_keepsAxes hindex) hselect hpositions
  obtain ⟨pos₂, hpos₂, hposShape, -⟩ := selected_eq (ω := ω) hindex "position_ids" hshape
  rw [hpos₁] at hpos₂
  cases hpos₂
  have hcount : (selectedLengths lengths index).length = index.length := length_map _
  have hpositions' : batchPositionIds microbatch = some pos₁ := by
    rw [batchPositionIds, hlookup₂, Option.filter_some, if_pos (by rw [Tensor.ndim, hposShape]; rfl)]
  obtain ⟨packed, hpacked⟩ := mapBatchValues_isOk
    (fun key x _ => packedValue_isOk haligned'.le key x) microbatch
    (allLeaves_true (fun _ _ => trivial) microbatch)
  have hpack := packMicrobatch_eq hlookup₁ haligned' hpositions' (by rw [hposShape, hcount])
  rw [hpacked, bind_ok] at hpack
  obtain ⟨call, hpad, -, hcall⟩ := padPackedMicrobatch_eq packed (selectedLengths lengths index)
    sequenceLength hmultiple
  refine ⟨microbatch, packed, call, hselect, hpack, hpad, ?_⟩
  intro front key t rest hleaf ht
  obtain ⟨t₁, ht₁, hper, hvalue⟩ := ht.selected (ω := ω) hindex
  rw [← hcount] at hper
  obtain ⟨t₂, ht₂, hshape₂, htokens₂⟩ := packedValue_eq (ω := ω) haligned'.le hper
  obtain ⟨t₃, hleaf₃, hshape₃, htokens₃⟩ :=
    hcall front key t₂ (leafAt_map hpacked (leafAt_map hselect hleaf ht₁) ht₂) rest hshape₂
  refine ⟨t₃, tokenValue t₁ sequenceLength, hleaf₃, hshape₃, ?_, hvalue⟩
  rw [htokens₃, htokens₂, take_left']
  rw [length_map, length_tokenIndex]

/-- Selecting, packing, padding and unpacking rows gives the values of their valid tokens back and
padding elsewhere, and so does every function of the tokens of the call. -/
theorem unpack_pad_pack (hmask : batchTensor batch "attention_mask" 2 = some mask)
    (haligned : LeftAligned mask sequenceLength lengths)
    (hpositions : batchPositionIds batch = some positionIds)
    (hshape : positionIds.shape = [lengths.length, sequenceLength])
    (hindex : ∀ i ∈ index, 0 ≤ i ∧ i.toNat < lengths.length) (hmultiple : 0 < multiple)
    (padValue : α) :
    ∃ microbatch packed metadata call metadata',
      selectRows batch index lengths.length = .ok microbatch ∧
      packMicrobatch microbatch = .ok (packed, metadata) ∧
      padPackedMicrobatch packed metadata multiple = .ok (call, metadata') ∧
      (∀ front key t rest, leafAt (front ++ [key]) batch = some (.tensor t) →
        IsPerToken key lengths.length sequenceLength t rest →
        ∃ t' out, leafAt (front ++ [key]) call = some (.tensor t') ∧
          unpackOutput t' metadata' padValue = .ok out ∧
          RestoredAs out index lengths sequenceLength rest padValue
            (batchToken batch sequenceLength (front ++ [key]))) ∧
      (∀ (paths : List (List String)) (f : List (List α) → List α) (u : Tensor α) (rest : List Nat),
        (∀ path ∈ paths, PerTokenPath batch lengths.length sequenceLength path) →
        u.shape = 1 :: metadata'.paddedTokens.toNat :: rest → (∀ k < metadata'.paddedTokens.toNat,
          u.tokens[k]? = some (f (paths.map fun path => callToken call path k))) →
        ∃ out, unpackOutput u metadata' padValue = .ok out ∧
          RestoredAs out index lengths sequenceLength rest padValue
            fun r s => f (paths.map fun path => batchToken batch sequenceLength path r s)) := by
  obtain ⟨microbatch, packed, call, hselect, hpack, hpad, hcall⟩ :=
    call_of_select hmask haligned hpositions hshape hindex hmultiple
  have hle : ∀ n ∈ selectedLengths lengths index, n ≤ sequenceLength := by
    intro n hn
    obtain ⟨i, hi, rfl⟩ := mem_map.mp hn
    rw [getD_eq_getElem?_getD, getElem?_eq_getElem (hindex i hi).2]
    exact haligned.le _ (getElem_mem _)
  have hcount : (selectedLengths lengths index).length = index.length := length_map _
  have hlength : ∀ i (hi : i < index.length),
      (selectedLengths lengths index).getD i 0 = lengths.getD index[i].toNat 0 := by
    intro i hi
    rw [getD_eq_getElem?_getD, selectedLengths, getElem?_map, getElem?_eq_getElem hi]
    rfl
  -- Unpacking anything whose tokens are a function of their places.
  have hunpack : ∀ (value : Nat → Nat → List α) {u : Tensor α} {rest : List Nat} {g : Nat → List α},
      u.shape = 1 :: paddedWidth (selectedLengths lengths index).sum multiple.toNat :: rest →
      u.tokens.take (selectedLengths lengths index).sum =
        (tokenIndex (selectedLengths lengths index) sequenceLength).map g →
      (∀ i s (hi : i < index.length), s < sequenceLength →
        g (i * sequenceLength + s) = value index[i].toNat s) → ∃ out, unpackOutput u
          (paddedMetadata (selectedLengths lengths index) sequenceLength multiple.toNat) padValue =
            .ok out ∧ RestoredAs out index lengths sequenceLength rest padValue value := by
    intro value u rest g hu hg hvalue
    obtain ⟨out, hout, houtShape, htokens⟩ := unpackOutput_eq (by omega) hle hu hg padValue
    refine ⟨out, hout, by rw [houtShape, hcount], ?_⟩
    intro i s hi hs
    rw [htokens i s (by omega) hs, hlength i hi, hvalue i s hi hs]
  refine ⟨microbatch, packed, _, call, _, hselect, hpack, hpad, ?_, ?_⟩
  · intro front key t rest hleaf ht
    obtain ⟨t', g, hleaf', hshape', htake, hvalue⟩ := hcall front key t rest hleaf ht
    have hbatch : ∀ i s (hi : i < index.length), s < sequenceLength → g (i * sequenceLength + s) =
        batchToken batch sequenceLength (front ++ [key]) index[i].toNat s := by
      intro i s hi hs
      rw [hvalue i s hi hs, batchToken, hleaf]
    obtain ⟨out, hout, hrestored⟩ := hunpack _ hshape' htake hbatch
    exact ⟨t', out, hleaf', hout, hrestored⟩
  · intro paths f u rest hpaths hu htokens
    have hwidth : (selectedLengths lengths index).sum ≤
        paddedWidth (selectedLengths lengths index).sum multiple.toNat := le_paddedWidth (by omega)
    let value : Nat → Nat → List α :=
      fun r s => f (paths.map fun path => batchToken batch sequenceLength path r s)
    let g : Nat → List α :=
      fun j => value (index.getD (j / sequenceLength) 0).toNat (j % sequenceLength)
    have hg : ∀ i s (hi : i < index.length), s < sequenceLength →
        g (i * sequenceLength + s) = value index[i].toNat s := by
      intro i s hi hs
      have hdiv : (i * sequenceLength + s) / sequenceLength = i := by
        rw [add_comm, Nat.add_mul_div_right _ _ (by omega), Nat.div_eq_of_lt hs, zero_add]
      have hmod : (i * sequenceLength + s) % sequenceLength = s := by
        rw [add_comm, Nat.add_mul_mod_self_right, Nat.mod_eq_of_lt hs]
      simp only [g, hdiv, hmod, getD_eq_getElem?_getD, getElem?_eq_getElem hi, Option.getD_some]
    have htake : u.tokens.take (selectedLengths lengths index).sum =
        (tokenIndex (selectedLengths lengths index) sequenceLength).map g := by
      apply ext_getElem?
      intro k
      rw [getElem?_map]
      by_cases hk : k < (selectedLengths lengths index).sum
      · have hk' : k < (tokenIndex (selectedLengths lengths index) sequenceLength).length := by
          rw [length_tokenIndex]
          exact hk
        rw [getElem?_take, if_pos hk, htokens k (lt_of_lt_of_le hk hwidth),
          getElem?_eq_getElem hk', Option.map_some]
        congr 1
        -- The token stands at a row and a position of the microbatch.
        have hlt := tokenIndex_lt hle (getElem_mem hk')
        rw [hcount] at hlt
        generalize hj : (tokenIndex (selectedLengths lengths index) sequenceLength)[k] = j at hlt
        have hpos : 0 < sequenceLength := by
          by_contra hzero
          rw [Nat.eq_zero_of_not_pos hzero, mul_zero] at hlt
          exact Nat.not_lt_zero _ hlt
        have hrow : j / sequenceLength < index.length := Nat.div_lt_of_lt_mul (by rwa [mul_comm])
        have hplace : j / sequenceLength * sequenceLength + j % sequenceLength = j :=
          Nat.div_add_mod' j sequenceLength
        rw [← hplace, hg _ _ hrow (Nat.mod_lt _ hpos)]
        simp only [value]
        congr 1
        apply map_congr_left
        intro path hpath
        obtain ⟨front, key, t, rest', rfl, hleaf, ht⟩ := hpaths path hpath
        obtain ⟨t', g', hleaf', -, htake', hvalue'⟩ := hcall front key t rest' hleaf ht
        have htoken : t'.tokens[k]? = some (g' j) := by
          have := congrArg (·[k]?) htake'
          simp only [getElem?_take, if_pos hk, getElem?_map, getElem?_eq_getElem hk',
            Option.map_some, hj] at this
          exact this
        have hbatch : batchToken batch sequenceLength (front ++ [key])
            index[j / sequenceLength].toNat (j % sequenceLength) = g' j := by
          rw [batchToken, hleaf]
          dsimp only
          rw [← hvalue' _ _ hrow (Nat.mod_lt _ hpos), hplace]
        rw [hbatch, callToken, hleaf']
        dsimp only
        rw [getD_eq_getElem?_getD, htoken]
        rfl
      · rw [getElem?_take, if_neg hk, getElem?_eq_none]
        · rfl
        · rw [length_tokenIndex]
          omega
    exact hunpack value hu htake hg

end RoundTrip

/-- A batch of two rows with three and one valid tokens. -/
def twoRowBatch : Batch Int Unit :=
  [("input_ids", .leaf (.tensor ⟨[2, 3], [5, 6, 7, 8, 0, 0], rfl⟩)),
    ("attention_mask", .leaf (.tensor ⟨[2, 3], [1, 1, 1, 1, 0, 0], rfl⟩)),
    ("position_ids", .leaf (.tensor ⟨[2, 3], [0, 1, 2, 0, 0, 0], rfl⟩))]

/-- The two rows in the other order, padded to a multiple of three. -/
theorem unpack_pad_pack_twoRows :
    ∃ microbatch packed metadata call metadata' t out,
      selectRows twoRowBatch [1, 0] 2 = .ok microbatch ∧
      packMicrobatch microbatch = .ok (packed, metadata) ∧
      padPackedMicrobatch packed metadata 3 = .ok (call, metadata') ∧
      leafAt ["input_ids"] call = some (.tensor t) ∧ unpackOutput t metadata' 9 = .ok out ∧
      RestoredAs out [1, 0] [3, 1] 3 [] 9 (batchToken twoRowBatch 3 ["input_ids"]) := by
  have haligned : LeftAligned (⟨[2, 3], [1, 1, 1, 1, 0, 0], rfl⟩ : Tensor Int) 3 [3, 1] :=
    ⟨rfl, by decide, .cons rfl (.cons rfl .nil), .cons rfl (.cons rfl .nil)⟩
  have hmask : batchTensor twoRowBatch "attention_mask" 2 =
      some ⟨[2, 3], [1, 1, 1, 1, 0, 0], rfl⟩ := rfl
  have hpositions : batchPositionIds twoRowBatch = some ⟨[2, 3], [0, 1, 2, 0, 0, 0], rfl⟩ := rfl
  have hindex : ∀ i ∈ ([1, 0] : List Int), 0 ≤ i ∧ i.toNat < [3, 1].length := by decide
  have hmultiple : (0 : Int) < 3 := by decide
  obtain ⟨microbatch, packed, metadata, call, metadata', hselect, hpack, hpad, hvalues, -⟩ :=
    unpack_pad_pack hmask haligned hpositions rfl hindex hmultiple 9
  obtain ⟨t, out, ht, hout, hrestored⟩ :=
    hvalues [] "input_ids" ⟨[2, 3], [5, 6, 7, 8, 0, 0], rfl⟩ [] rfl ⟨by decide, .inl rfl⟩
  exact ⟨microbatch, packed, metadata, call, metadata', t, out, hselect, hpack, hpad, ht, hout,
    hrestored⟩

end ArcticPlatform.Packing
