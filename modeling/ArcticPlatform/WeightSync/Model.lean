import ArcticPlatform.Library.Json
import ArcticPlatform.Library.Slices
import Mathlib.Data.List.AList

/-!
# Weight sync: bucket mode of the NCCL engine

An embedding of `NCCLEngine.send_weights` and `NCCLEngine.receive_weights`.
A tensor is its shape, its dtype and its raw bytes in row order; a staging buffer
is the list of its bytes.  What the sender hands to the transport is the list of
the pairs of meta buffer and data buffer it flushes, with the content they have
at the flush, and the receiver reads such a list.

Buffers are not cleared between buckets: a data buffer still holds the bytes of
the bucket before the last one behind the bytes of the current one.
-/

namespace ArcticPlatform.WeightSync

open PyJson Slices

/-! ## Tensors -/

/-- The dtypes of `torch` that have whole bytes. -/
inductive Dtype where
  | bool | uint8 | int8 | uint16 | int16 | uint32 | int32 | uint64 | int64
  | float8_e4m3fn | float8_e4m3fnuz | float8_e5m2 | float8_e5m2fnuz | float8_e8m0fnu
  | bfloat16 | float16 | float32 | float64
  | complex32 | complex64 | complex128
  deriving DecidableEq

namespace Dtype

/-- The attribute of `torch` that names the dtype. -/
def name : Dtype → String
  | .bool => "bool"
  | .uint8 => "uint8"
  | .int8 => "int8"
  | .uint16 => "uint16"
  | .int16 => "int16"
  | .uint32 => "uint32"
  | .int32 => "int32"
  | .uint64 => "uint64"
  | .int64 => "int64"
  | .float8_e4m3fn => "float8_e4m3fn"
  | .float8_e4m3fnuz => "float8_e4m3fnuz"
  | .float8_e5m2 => "float8_e5m2"
  | .float8_e5m2fnuz => "float8_e5m2fnuz"
  | .float8_e8m0fnu => "float8_e8m0fnu"
  | .bfloat16 => "bfloat16"
  | .float16 => "float16"
  | .float32 => "float32"
  | .float64 => "float64"
  | .complex32 => "complex32"
  | .complex64 => "complex64"
  | .complex128 => "complex128"

/-- Bytes of an element. -/
def itemsize : Dtype → Nat
  | .bool | .uint8 | .int8 | .float8_e4m3fn | .float8_e4m3fnuz | .float8_e5m2
  | .float8_e5m2fnuz | .float8_e8m0fnu => 1
  | .uint16 | .int16 | .bfloat16 | .float16 => 2
  | .uint32 | .int32 | .float32 | .complex32 => 4
  | .uint64 | .int64 | .float64 | .complex64 => 8
  | .complex128 => 16

/-- All dtypes. -/
def all : List Dtype :=
  [.bool, .uint8, .int8, .uint16, .int16, .uint32, .int32, .uint64, .int64,
    .float8_e4m3fn, .float8_e4m3fnuz, .float8_e5m2, .float8_e5m2fnuz, .float8_e8m0fnu,
    .bfloat16, .float16, .float32, .float64, .complex32, .complex64, .complex128]

/-- `str(dtype)`. -/
def text (d : Dtype) : String := "torch." ++ d.name

end Dtype

/-- `s.replace(pattern, "")`; the first argument counts characters that are still to be
dropped. -/
def removeAll (pattern : List Char) : Nat → List Char → List Char
  | _, [] => []
  | skip + 1, _ :: cs => removeAll pattern skip cs
  | 0, c :: cs =>
    if pattern.isPrefixOf (c :: cs) then removeAll pattern (pattern.length - 1) cs
    else c :: removeAll pattern 0 cs

/-- `getattr(torch, text.replace("torch.", ""))`. -/
def dtypeOfText (text : String) : Option Dtype :=
  Dtype.all.find? fun d => d.name.toList = removeAll "torch.".toList 0 text.toList

/-- A named weight: its bytes fill its shape. -/
structure Weight where
  name : String
  shape : List Nat
  dtype : Dtype
  bytes : List UInt8
  length_bytes : bytes.length = shape.prod * dtype.itemsize

/-- `w.nbytes`. -/
def Weight.nbytes (w : Weight) : Nat := w.bytes.length

/-! ## Metadata -/

/-- `META_BUF_SIZE`. -/
def metaBufSize : Nat := 262144

/-- `_META_PAYLOAD_LIMIT`. -/
def metaPayloadLimit : Nat := metaBufSize - 8

/-- An entry of a bucket's metadata; `chunk` has `tensor_offset` and `tensor_nbytes`. -/
structure Entry where
  name : String
  shape : List Nat
  dtype : String
  offset : Nat
  nbytes : Nat
  chunk : Option (Nat × Nat)

namespace Entry

/-- The fields of a chunk. -/
def chunkFields : Option (Nat × Nat) → List (String × Json)
  | none => []
  | some (tensorOffset, tensorNbytes) =>
    [("tensor_offset", .int tensorOffset), ("tensor_nbytes", .int tensorNbytes)]

/-- The dictionary of an entry. -/
def toJson (e : Entry) : Json :=
  .obj ([("name", .str e.name), ("shape", .arr (e.shape.map fun n : Nat => .int n)),
    ("dtype", .str e.dtype), ("offset", .int e.offset), ("nbytes", .int e.nbytes)] ++
    chunkFields e.chunk)

end Entry

/-- The metadata of a bucket. -/
def metaJson (entries : List Entry) (isLast : Bool) : Json :=
  .obj [("tensors", .arr (entries.map Entry.toJson)), ("is_last", .bool isLast)]

/-- `text.encode("utf-8")`. -/
def encodeUtf8 (text : List Char) : List UInt8 := text.flatMap String.utf8EncodeChar

/-- The serialized metadata. -/
def metaBytes (entries : List Entry) (isLast : Bool) : List UInt8 :=
  encodeUtf8 (dumps .spaced (metaJson entries isLast))

/-- `_bucket_meta_nbytes`. -/
def bucketMetaNbytes (entries : List Entry) (isLast : Bool) : Nat :=
  (metaBytes entries isLast).length

/-- Little-endian bytes of a number. -/
def littleEndian : Nat → Nat → List UInt8
  | 0, _ => []
  | width + 1, n => UInt8.ofNat (n % 256) :: littleEndian width (n / 256)

/-- The number with the given little-endian bytes. -/
def ofLittleEndian : List UInt8 → Nat
  | [] => 0
  | b :: bytes => b.toNat + 256 * ofLittleEndian bytes

inductive SendError where
  | singleTensorMetadata (name : String) (nbytes : Nat)
  | metadata (nbytes : Nat)
  | copy
  deriving DecidableEq

/-- `_write_meta`: the content of the meta buffer. -/
def writeMeta (entries : List Entry) (isLast : Bool) : Except SendError (List UInt8) :=
  let json := metaBytes entries isLast
  if metaBufSize < json.length + 8 then .error (.metadata json.length)
  else
    .ok (littleEndian 8 json.length ++ json ++ List.replicate (metaBufSize - 8 - json.length) 0)

/-- `_parse_meta`. -/
def parseMeta (buf : List UInt8) : Option Json := do
  let metaLen := ofLittleEndian (buf.take 8)
  let text ← ByteArray.utf8Decode? (slice buf 8 (8 + metaLen)).toByteArray
  loads text.toList

/-! ## Sending -/

/-- The engine: two data buffers of the bucket size, with whatever earlier transfers left in
them. -/
structure Engine where
  bucketSize : Nat
  dataBufs : Bool → List UInt8
  bucketSize_pos : 1 ≤ bucketSize
  length_dataBufs : ∀ idx, (dataBufs idx).length = bucketSize

/-- What is sent for a bucket. -/
structure Bucket where
  metaBuf : List UInt8
  dataBuf : List UInt8

/-- The local variables of `send_weights`, with the buffers and what has been sent. -/
structure SendState where
  packIdx : Bool
  dataBufs : Bool → List UInt8
  bucketMeta : List Entry
  offset : Nat
  nBuckets : Nat
  nParams : Nat
  sent : List Bucket

/-- `_flush_bucket_send`. -/
def flushBucketSend (s : SendState) (isLast : Bool) : Except SendError SendState := do
  let buf ← writeMeta s.bucketMeta isLast
  .ok { s with sent := s.sent ++ [⟨buf, s.dataBufs s.packIdx⟩] }

/-- Flush the bucket and start the next one in the other buffer. -/
def nextBucket (s : SendState) : Except SendError SendState := do
  let s ← flushBucketSend s false
  .ok { s with packIdx := !s.packIdx, bucketMeta := [], offset := 0, nBuckets := s.nBuckets + 1 }

/-- Start the next bucket if needed. -/
def flushIf (flush : Bool) (s : SendState) : Except SendError SendState :=
  if flush then nextBucket s else .ok s

/-- `self._data_bufs[pack_idx][start:stop].copy_(bytes)`. -/
def copyBytes (s : SendState) (start stop : Nat) (bytes : List UInt8) :
    Except SendError SendState :=
  match assign (s.dataBufs s.packIdx) start stop bytes with
  | some buf => .ok { s with dataBufs := Function.update s.dataBufs s.packIdx buf }
  | none => .error .copy

/-- Entry of a whole weight. -/
def Weight.entry (w : Weight) (offset : Nat) : Entry :=
  ⟨w.name, w.shape, w.dtype.text, offset, w.nbytes, none⟩

/-- Entry of a chunk of a weight. -/
def Weight.chunkEntry (w : Weight) (tensorOffset chunkNbytes : Nat) : Entry :=
  ⟨w.name, w.shape, w.dtype.text, 0, chunkNbytes, some (tensorOffset, w.nbytes)⟩

/-- Admission check of a single entry. -/
def checkSingle (e : Entry) : Except SendError Unit :=
  if metaPayloadLimit < bucketMetaNbytes [e] true then
    .error (.singleTensorMetadata e.name (bucketMetaNbytes [e] true))
  else .ok ()

/-- One round of the chunk loop without the flush. -/
def packChunk (bucketSize : Nat) (w : Weight) (s : SendState) (tensorOffset : Nat) :
    Except SendError SendState := do
  let chunkNbytes := min bucketSize (w.nbytes - tensorOffset)
  let entry := w.chunkEntry tensorOffset chunkNbytes
  checkSingle entry
  let s ← copyBytes s 0 chunkNbytes (slice w.bytes tensorOffset (tensorOffset + chunkNbytes))
  .ok { s with bucketMeta := [entry], offset := chunkNbytes }

/-- The chunk loop for a weight that is larger than a bucket. -/
def sendChunks (bucketSize : Nat) (hpos : 1 ≤ bucketSize) (w : Weight) (s : SendState)
    (tensorOffset : Nat) : Except SendError SendState :=
  if tensorOffset < w.nbytes then do
    let s ← packChunk bucketSize w s tensorOffset
    let next := tensorOffset + min bucketSize (w.nbytes - tensorOffset)
    let s ← flushIf (next < w.nbytes) s
    sendChunks bucketSize hpos w s next
  else .ok s
termination_by w.nbytes - tensorOffset

/-- A weight does not join the bucket: the data or the metadata would overflow. -/
def overflows (bucketSize : Nat) (bucketMeta : List Entry) (offset : Nat) (w : Weight) : Bool :=
  !bucketMeta.isEmpty &&
    (decide (bucketSize < offset + w.nbytes) ||
      decide (metaPayloadLimit < bucketMetaNbytes (bucketMeta ++ [w.entry offset]) true))

/-- The body of the loop over the weights. -/
def sendWeight (bucketSize : Nat) (hpos : 1 ≤ bucketSize) (s : SendState) (w : Weight) :
    Except SendError SendState :=
  if bucketSize < w.nbytes then do
    let s ← flushIf (!s.bucketMeta.isEmpty) s
    let s ← sendChunks bucketSize hpos w s 0
    .ok { s with nParams := s.nParams + 1 }
  else do
    let s ← flushIf (overflows bucketSize s.bucketMeta s.offset w) s
    let entry := w.entry s.offset
    checkSingle entry
    let s ← copyBytes s s.offset (s.offset + w.nbytes) w.bytes
    .ok { s with
      bucketMeta := s.bucketMeta ++ [entry], offset := s.offset + w.nbytes,
      nParams := s.nParams + 1 }

/-- What `send_weights` reports, with the buckets it has sent. -/
structure SendResult where
  paramsSent : Nat
  buckets : Nat
  sent : List Bucket

/-- The state before the first weight. -/
def Engine.initial (engine : Engine) : SendState :=
  ⟨false, engine.dataBufs, [], 0, 0, 0, []⟩

/-- `send_weights`. -/
def sendWeights (engine : Engine) (weights : List Weight) : Except SendError SendResult := do
  let s ← weights.foldlM (sendWeight engine.bucketSize engine.bucketSize_pos) engine.initial
  let s ← flushBucketSend s true
  .ok ⟨s.nParams, s.nBuckets + 1, s.sent⟩

/-! ## Receiving -/

/-- A tensor that the receiver yields. -/
structure Tensor where
  name : String
  shape : List Nat
  dtype : Dtype
  bytes : List UInt8

/-- A tensor that is being rebuilt from chunks. -/
structure PartialTensor where
  tensor : Tensor
  nextOffset : Nat
  expectedNbytes : Nat

inductive ReceiveError where
  | firstChunk (name : String) (start : Nat)
  | declaredBytes (name : String) (declared required : Nat)
  | nonContiguous (name : String) (start size expectedStart expectedSize : Nat)
  | chunkEnd (name : String) (stop size : Nat)
  | incomplete (names : List String)
  | view
  | metadata
  | copy
  | blocked

/-- The fields that the receiver reads from an entry. -/
structure Received where
  name : String
  shape : List Nat
  dtype : Dtype
  offset : Nat
  chunkNbytes : Nat
  tensorOffset : Nat
  tensorNbytes : Nat

/-- A non-negative integer. -/
def readNat : Json → Option Nat
  | .int (.ofNat n) => some n
  | _ => none

/-- A string. -/
def readText : Json → Option String
  | .str s => some s
  | _ => none

/-- An array of non-negative integers. -/
def readShape : Json → Option (List Nat)
  | .arr items => items.mapM readNat
  | _ => none

/-- `tm.get(key, default)` of an integer. -/
def readNatD (tm : Json) (key : String) (fallback : Nat) : Option Nat :=
  match tm.get? key with
  | some v => readNat v
  | none => some fallback

/-- The reads at the start of the loop over the entries. -/
def readEntry (tm : Json) : Option Received := do
  let shape ← readShape (← tm.get? "shape")
  let dtype ← dtypeOfText (← readText (← tm.get? "dtype"))
  let chunkNbytes ← readNat (← tm.get? "nbytes")
  let offset ← readNat (← tm.get? "offset")
  let tensorOffset ← readNatD tm "tensor_offset" 0
  let tensorNbytes ← readNatD tm "tensor_nbytes" chunkNbytes
  let name ← readText (← tm.get? "name")
  some ⟨name, shape, dtype, offset, chunkNbytes, tensorOffset, tensorNbytes⟩

/-- `chunk.view(dtype).reshape(shape)`: the offset of the chunk in its storage and its length must
be multiples of the element size. -/
def viewAs (dtype : Dtype) (shape : List Nat) (storageOffset : Nat) (chunk : List UInt8) :
    Except ReceiveError (List UInt8) :=
  if storageOffset % dtype.itemsize = 0 ∧ chunk.length % dtype.itemsize = 0 ∧
      chunk.length / dtype.itemsize = shape.prod then .ok chunk
  else .error .view

/-- `partial_tensors`. -/
abbrev PartialTensors := AList (fun _ : String => PartialTensor)

section Receive

variable (uninit : Nat → UInt8)

/-- The state of a tensor that is rebuilt from chunks, at its next chunk; `uninit` is what
`torch.empty` holds. -/
def partialState (parts : PartialTensors) (tm : Received) : Except ReceiveError PartialTensor :=
  match parts.lookup tm.name with
  | some state => .ok state
  | none =>
    if tm.tensorOffset ≠ 0 then .error (.firstChunk tm.name tm.tensorOffset)
    else
      let nbytes := tm.shape.prod * tm.dtype.itemsize
      if nbytes ≠ tm.tensorNbytes then
        .error (.declaredBytes tm.name tm.tensorNbytes nbytes)
      else
        .ok ⟨⟨tm.name, tm.shape, tm.dtype, (List.range nbytes).map uninit⟩, 0, tm.tensorNbytes⟩

/-- One chunk of a tensor. -/
def receiveChunk (parts : PartialTensors) (tm : Received) (chunk : List UInt8) :
    Except ReceiveError (List Tensor × PartialTensors) := do
  let state ← partialState uninit parts tm
  if tm.tensorOffset ≠ state.nextOffset ∨ tm.tensorNbytes ≠ state.expectedNbytes then
    .error (.nonContiguous tm.name tm.tensorOffset tm.tensorNbytes state.nextOffset
      state.expectedNbytes)
  else
    let stop := tm.tensorOffset + tm.chunkNbytes
    if tm.tensorNbytes < stop then .error (.chunkEnd tm.name stop tm.tensorNbytes)
    else
      match assign state.tensor.bytes tm.tensorOffset stop chunk with
      | none => .error .copy
      | some bytes =>
        let tensor := { state.tensor with bytes := bytes }
        if stop = tm.tensorNbytes then .ok ([tensor], parts.erase tm.name)
        else .ok ([], parts.insert tm.name ⟨tensor, stop, tm.tensorNbytes⟩)

/-- The body of the loop over the entries of a bucket: what is yielded, and the tensors that are
being rebuilt. -/
def receiveEntry (data : List UInt8) (parts : PartialTensors) (tm : Json) :
    Except ReceiveError (List Tensor × PartialTensors) :=
  match readEntry tm with
  | none => .error .metadata
  | some tm =>
    let chunk := slice data tm.offset (tm.offset + tm.chunkNbytes)
    if tm.tensorOffset = 0 ∧ tm.tensorNbytes = tm.chunkNbytes then do
      let bytes ← viewAs tm.dtype tm.shape (min tm.offset data.length) chunk
      .ok ([⟨tm.name, tm.shape, tm.dtype, bytes⟩], parts)
    else receiveChunk uninit parts tm chunk

/-- The loop over the entries of a bucket. -/
def receiveEntries (data : List UInt8) :
    PartialTensors → List Json → Except ReceiveError (List Tensor × PartialTensors)
  | parts, [] => .ok ([], parts)
  | parts, tm :: rest => do
    let (yielded, parts) ← receiveEntry uninit data parts tm
    let (more, parts) ← receiveEntries data parts rest
    .ok (yielded ++ more, parts)

/-- The two fields of the metadata of a bucket. -/
def readMeta (metadata : Json) : Option (List Json × Bool) := do
  match ← metadata.get? "is_last", ← metadata.get? "tensors" with
  | .bool isLast, .arr tensors => some (tensors, isLast)
  | _, _ => none

/-- The loop of `receive_weights`: what is yielded, and the buckets that were not received. -/
def receiveLoop : PartialTensors → List Bucket → Except ReceiveError (List Tensor × List Bucket)
  | _, [] => .error .blocked
  | parts, bucket :: rest =>
    match (parseMeta bucket.metaBuf).bind readMeta with
    | none => .error .metadata
    | some (tensors, isLast) => do
      let (yielded, parts) ← receiveEntries uninit bucket.dataBuf parts tensors
      if isLast then
        if parts.entries = [] then .ok (yielded, rest)
        else .error (.incomplete (parts.keys.mergeSort fun a b => decide (a ≤ b)))
      else do
        let (more, rest) ← receiveLoop parts rest
        .ok (yielded ++ more, rest)

/-- `receive_weights`. -/
def receiveWeights (buckets : List Bucket) : Except ReceiveError (List Tensor × List Bucket) :=
  receiveLoop uninit ∅ buckets

end Receive

/-- The tensor of a weight. -/
def Weight.tensor (w : Weight) : Tensor :=
  ⟨w.name, w.shape, w.dtype, w.bytes⟩

end ArcticPlatform.WeightSync
