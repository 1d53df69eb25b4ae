import ArcticPlatform.Library.NdTensors

/-!
# Packing rows into model calls

An embedding of `common/packing`.  A microbatch of rows is packed into one
sequence of its valid tokens, padded at the tail, and split into windows of equal
length; results are put back into rows.

A batch is a dictionary of values, where a value may be a dictionary again.  The
values of a tensor are of one type, of which only the conversions that the code makes
are known.  Counts are integers without a bound.
-/

namespace ArcticPlatform.Packing

open Results Slices Tensors

/-- What the functions raise. -/
inductive Error where
  | noValidity
  | attentionMask
  | positionIds
  | leftAligned
  | multiple
  | lengthPerRow
  | lengthRange
  | metadata
  | shardCount
  | shardIndex
  | notDivisible
  | unpaddedWidth (key : String)
  | noTokenAxis
  | windowTokens
  | tensor (e : TensorError)
  deriving DecidableEq

/-- An error of a tensor operation. -/
def lift {β : Type} : Except TensorError β → Except Error β
  | .ok x => .ok x
  | .error e => .error (.tensor e)

/-- The conversions of values. -/
class Scalar (α : Type) where
  /-- `.to(torch.int32)` -/
  toInt : α → Int
  /-- `.to(torch.bool)` -/
  toBool : α → Bool
  /-- A constant of the code. -/
  ofInt : Int → α

instance : Scalar Int where
  toInt x := x
  toBool x := x ≠ 0
  ofInt x := x

/-! ## Batches -/

/-- A value of a batch that is not a dictionary. -/
inductive Leaf (α ω : Type) where
  | tensor (t : Tensor α)
  | other (x : ω)

/-- A value of a batch. -/
inductive Value (α ω : Type) where
  | leaf (x : Leaf α ω)
  | dict (entries : List (String × Value α ω))

/-- A batch. -/
abbrev Batch (α ω : Type) := List (String × Value α ω)

section Walk

variable {α ω : Type} (transform : String → Leaf α ω → Except Error (Option (Leaf α ω)))

mutual

/-- One value of `map_batch_values`, with the key it has in its dictionary; a leaf may be dropped. -/
def mapBatchValue (key : String) : Value α ω → Except Error (Option (Value α ω))
  | .leaf x => do
    let transformed ← transform key x
    .ok (transformed.map .leaf)
  | .dict entries => do
    let result ← mapBatchValues entries
    .ok (some (.dict result))

/-- `map_batch_values`. -/
def mapBatchValues : List (String × Value α ω) → Except Error (List (String × Value α ω))
  | [] => .ok []
  | (key, value) :: batch => do
    let transformed ← mapBatchValue key value
    let result ← mapBatchValues batch
    .ok ((transformed.map (Prod.mk key)).toList ++ result)

end

end Walk

/-! ## Rows -/

section Groups

variable {α ω : Type}

/-- The tensor of a value with enough axes. -/
def tensorOf (minDims : Nat) : Option (Value α ω) → Option (Tensor α)
  | some (.leaf (.tensor t)) => if minDims ≤ t.ndim then some t else none
  | _ => none

/-- `batch_tensor`. -/
def batchTensor (batch : Batch α ω) (key : String) (minDims : Nat) : Option (Tensor α) :=
  match batch.lookup "context" with
  | some (.dict context) => [batch.lookup key, context.lookup key].findSome? (tensorOf minDims)
  | _ => [batch.lookup key].findSome? (tensorOf minDims)

/-- `batch_position_ids`. -/
def batchPositionIds (batch : Batch α ω) : Option (Tensor α) :=
  (batchTensor batch "position_ids" 2).filter fun t => t.ndim = 2

/-- A leaf of `select_rows`. -/
def selected (index : List Int) (nRows : Nat) (_key : String) :
    Leaf α ω → Except Error (Option (Leaf α ω))
  | .tensor t =>
    if t.shape.head? = some nRows then do
      let t ← lift (t.indexSelect index)
      .ok (some (.tensor t))
    else .ok (some (.tensor t))
  | .other x => .ok (some (.other x))

/-- `select_rows`. -/
def selectRows (batch : Batch α ω) (index : List Int) (nRows : Nat) : Except Error (Batch α ω) :=
  mapBatchValues (selected index nRows) batch

end Groups

/-! ## Packing -/

/-- `PackMetadata`. -/
structure PackMetadata where
  batchSize : Nat
  sequenceLength : Nat
  validLengths : List Int
  cuSeqlens : List Int
  paddedTokens : Int

/-- `ROW_BROADCAST_KEYS`. -/
def rowBroadcastKeys : List String := ["sampler_kl_weights"]

/-- `sequence_pad_value`; the first constant is `IGNORE_INDEX`. -/
def sequencePadValue (key : String) : Int :=
  if key = "labels" then -100 else if key = "temperature" then 1 else 0

/-- `packed_token_index`. -/
def packedTokenIndex (validLengths cuSeqlens : List Int) (sequenceLength : Nat) :
    Except TensorError (List Int) := do
  let packedTokens := validLengths.sum
  let rowIds ← repeatInterleave (arange validLengths.length) validLengths
  let rowStarts ← repeatInterleave cuSeqlens.dropLast validLengths
  let withinRow := List.zipWith (· - ·) (arange packedTokens.toNat) rowStarts
  .ok (List.zipWith (fun row within => row * sequenceLength + within) rowIds withinRow)

section Pack

variable {α ω : Type} [Scalar α]

/-- A leaf of `pack_microbatch`. -/
def packedValue (batchSize sequenceLength : Nat) (validLengths tokenIndex : List Int)
    (key : String) : Leaf α ω → Except Error (Option (Leaf α ω))
  | .tensor t =>
    if key = "attention_mask" then .ok none
    else if key ∈ rowBroadcastKeys ∧ t.shape = [batchSize] then do
      let values ← lift (repeatInterleave t.data validLengths)
      .ok (some (.tensor (Tensor.ofList values).unsqueeze))
    else if 2 ≤ t.ndim ∧ t.shape.take 2 = [batchSize, sequenceLength] then do
      let rows ← lift (t.reshape (batchSize * sequenceLength :: t.shape.drop 2))
      let packed ← lift (rows.indexSelect tokenIndex)
      .ok (some (.tensor packed.unsqueeze))
    else .ok (some (.tensor t))
  | .other x => if key = "attention_mask" then .ok none else .ok (some (.other x))

/-- A row of the attention mask has its valid tokens in front. -/
def isPrefixRow (row : List α) (length : Int) : Bool :=
  row.map Scalar.toBool = (arange row.length).map fun i => decide (i < length)

/-- `pack_microbatch`. -/
def packMicrobatch (data : Batch α ω) : Except Error (Batch α ω × PackMetadata) :=
  match batchTensor data "attention_mask" 2, batchPositionIds data with
  | none, _ => .error .attentionMask
  | some attentionMask, positionIds =>
    if attentionMask.ndim ≠ 2 then .error .attentionMask
    else match positionIds with
      | none => .error .positionIds
      | some positionIds =>
        if positionIds.shape.take 2 ≠ attentionMask.shape then .error .positionIds
        else
          let batchSize := attentionMask.shape.headD 0
          let sequenceLength := attentionMask.shape.tail.headD 0
          let validLengths := attentionMask.items.map fun row => (row.map Scalar.toInt).sum
          if ¬ (attentionMask.items.zip validLengths).all fun p => isPrefixRow p.1 p.2 then
            .error .leftAligned
          else do
            let cuSeqlens := 0 :: cumsum validLengths
            let packedTokens := cuSeqlens.getLastD 0
            let tokenIndex ← lift (packedTokenIndex validLengths cuSeqlens sequenceLength)
            let packed ← mapBatchValues
              (packedValue batchSize sequenceLength validLengths tokenIndex) data
            .ok (packed, ⟨batchSize, sequenceLength, validLengths, cuSeqlens, packedTokens⟩)

/-- A leaf of `pad_packed_microbatch`. -/
def paddedValue (currentTokens padTokens : Int) (key : String) :
    Leaf α ω → Except Error (Option (Leaf α ω))
  | .tensor t =>
    if 2 ≤ t.ndim ∧ ((t.shape.tail.headD 0 : Nat) : Int) = currentTokens then
      .ok (some (.tensor (t.padTokens padTokens.toNat (Scalar.ofInt (sequencePadValue key)))))
    else .ok (some (.tensor t))
  | .other x => .ok (some (.other x))

/-- `pad_packed_microbatch`. -/
def padPackedMicrobatch (packed : Batch α ω) (metadata : PackMetadata) (multiple : Int) :
    Except Error (Batch α ω × PackMetadata) :=
  if multiple ≤ 0 then .error .multiple
  else
    let currentTokens := metadata.paddedTokens
    let paddedTokens := ((currentTokens + multiple - 1) / multiple) * multiple
    if paddedTokens = currentTokens then .ok (packed, metadata)
    else do
      let padded ← mapBatchValues (paddedValue currentTokens (paddedTokens - currentTokens)) packed
      .ok (padded, { metadata with paddedTokens := paddedTokens })

omit [Scalar α] in
/-- `unpack_output`. -/
def unpackOutput (packedTensor : Tensor α) (metadata : PackMetadata) (padValue : α) :
    Except Error (Tensor α) :=
  let batchSize := metadata.batchSize
  let sequenceLength := metadata.sequenceLength
  let lengths := metadata.validLengths
  if lengths.length ≠ batchSize then .error .lengthPerRow
  else
    let packedTensor := if 2 ≤ packedTensor.ndim then packedTensor.squeeze else packedTensor
    let trailingShape := packedTensor.shape.tail
    let output := Tensor.full (batchSize * sequenceLength :: trailingShape) padValue
    if batchSize = 0 then lift (output.reshape (batchSize :: sequenceLength :: trailingShape))
    else if lengths.any fun n => n < 0 ∨ (sequenceLength : Int) < n then .error .lengthRange
    else if List.zipWith (· - ·) metadata.cuSeqlens.tail metadata.cuSeqlens ≠ lengths then
      .error .metadata
    else do
      let tokenIndex ← lift (packedTokenIndex lengths metadata.cuSeqlens sequenceLength)
      let output ← lift (output.indexCopy tokenIndex (packedTensor.takeItems tokenIndex.length))
      lift (output.reshape (batchSize :: sequenceLength :: trailingShape))

end Pack

/-! ## Windows -/

/-- `token_window`. -/
def tokenWindow (paddedTokens shardCount shardIndex : Int) : Except Error (Int × Int) :=
  if shardCount ≤ 0 then .error .shardCount
  else if ¬ (0 ≤ shardIndex ∧ shardIndex < shardCount) then .error .shardIndex
  else if paddedTokens % shardCount ≠ 0 then .error .notDivisible
  else
    let windowTokens := paddedTokens / shardCount
    let start := shardIndex * windowTokens
    .ok (start, start + windowTokens)

/-- `window_cu_seqlens`. -/
def windowCuSeqlens (metadata : PackMetadata) (shardCount shardIndex : Int) :
    Except Error (List Int) := do
  let window ← tokenWindow metadata.paddedTokens shardCount shardIndex
  let boundaries := metadata.cuSeqlens.map fun c => min (max c window.1) window.2 - window.1
  .ok (boundaries.dropLast ++ [window.2 - window.1])

section Windows

variable {α ω : Type}

/-- A leaf of `token_shard`. -/
def slicedValue (metadata : PackMetadata) (start stop : Int) (key : String) :
    Leaf α ω → Except Error (Option (Leaf α ω))
  | .tensor t =>
    if 2 ≤ t.ndim then
      let tokenCount : Int := t.shape.tail.headD 0
      if tokenCount = metadata.paddedTokens then
        .ok (some (.tensor (t.sliceTokens start.toNat stop.toNat)))
      else if tokenCount = metadata.cuSeqlens.getLastD 0 ∧
          metadata.cuSeqlens.getLastD 0 ≠ metadata.paddedTokens then .error (.unpaddedWidth key)
      else .ok (some (.tensor t))
    else .ok (some (.tensor t))
  | .other x => .ok (some (.other x))

/-- `token_shard`. -/
def tokenShard (packed : Batch α ω) (metadata : PackMetadata) (shardCount shardIndex : Int) :
    Except Error (Batch α ω) := do
  let window ← tokenWindow metadata.paddedTokens shardCount shardIndex
  mapBatchValues (slicedValue metadata window.1 window.2) packed

/-- The part of a window that a row has. -/
def windowRowPiece (windowValues : Tensor α) (windowStart windowEnd rowStart rowEnd : Int) :
    Tensor α :=
  let overlapStart := max rowStart windowStart
  let overlapEnd := min rowEnd windowEnd
  if overlapEnd ≤ overlapStart then windowValues.takeItems 0
  else windowValues.sliceItems (overlapStart - windowStart).toNat (overlapEnd - windowStart).toNat

/-- `window_row_pieces`. -/
def windowRowPieces (windowValues : Tensor α) (metadata : PackMetadata)
    (shardCount shardIndex : Int) : Except Error (List (Tensor α)) :=
  if windowValues.ndim < 1 then .error .noTokenAxis
  else
    let windowValues := if 2 ≤ windowValues.ndim then windowValues.squeeze else windowValues
    do
      let window ← tokenWindow metadata.paddedTokens shardCount shardIndex
      if ((windowValues.shape.headD 0 : Nat) : Int) ≠ window.2 - window.1 then .error .windowTokens
      else (List.range metadata.batchSize).mapM fun row =>
        match metadata.cuSeqlens[row]?, metadata.cuSeqlens[row + 1]? with
        | some rowStart, some rowEnd =>
          .ok (windowRowPiece windowValues window.1 window.2 rowStart rowEnd)
        | _, _ => .error (.tensor .indexOutOfRange)

end Windows

end ArcticPlatform.Packing
