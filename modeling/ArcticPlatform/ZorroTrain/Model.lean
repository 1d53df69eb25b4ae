import ArcticPlatform.Library.Slices
import Mathlib.Data.List.AList

/-!
# ZoRRoTrain: prompt deduplication of a packed batch

An embedding of the deduplication, unpadding and reconstruction functions of
`ZoRRoTrain`.  A tensor with a token dimension is the list of its tokens,
whatever their remaining dimensions: every function here cuts and joins along the
token dimension only, so it is generic in the type of a token.

Dictionaries that the source fills in a loop and then reads in key order are
given by what a lookup finds: the first prompt segment of a group, the last
response segment of a sample.  A Python exception is `none`.
-/

namespace ArcticPlatform.ZorroTrain

open Slices List

/-! ## Batches and prompt groups -/

/-- A padded batch: every row is a prompt region followed by a response region. -/
structure Batch (ι : Type) where
  promptLen : Nat
  responseLength : Nat
  inputIds : List (List ι)
  attentionMask : List (List Bool)
  ids_length : ∀ row ∈ inputIds, row.length = promptLen + responseLength
  mask_length : ∀ row ∈ attentionMask, row.length = promptLen + responseLength
  mask_rows : attentionMask.length = inputIds.length

namespace Batch

variable {ι : Type} (b : Batch ι)

/-- `batch_size`. -/
def size : Nat :=
  b.inputIds.length

/-- `input_ids[i, :prompt_len]`. -/
def prompt (i : Nat) : List ι :=
  (b.inputIds.getD i []).take b.promptLen

/-- `input_ids[i, prompt_len:]`. -/
def response (i : Nat) : List ι :=
  (b.inputIds.getD i []).drop b.promptLen

/-- `attention_mask[i, :prompt_len]`. -/
def promptMask (i : Nat) : List Bool :=
  (b.attentionMask.getD i []).take b.promptLen

/-- `attention_mask[i, prompt_len:]`. -/
def responseMask (i : Nat) : List Bool :=
  (b.attentionMask.getD i []).drop b.promptLen

end Batch

/-- The inner loop of `find_prompt_groups`: the first group whose representative has the prompt
of the sample, or a new group. -/
def addSample {ι : Type} [DecidableEq ι] (prompts : Nat → List ι) (i : Nat) :
    List (List Nat) → List (List Nat)
  | [] => [[i]]
  | group :: groups =>
    if prompts i = prompts (group.headD 0) then (group ++ [i]) :: groups
    else group :: addSample prompts i groups

/-- `find_prompt_groups`; stacking the unique prompts of an empty batch is an error. -/
def findPromptGroups {ι : Type} [DecidableEq ι] (b : Batch ι) :
    Option (List (List Nat) × List (List ι)) :=
  let groups := (range b.size).foldl (fun groups i => addSample b.prompt i groups) []
  if groups = [] then none else some (groups, groups.map fun group => b.prompt (group.headD 0))

/-! ## Deduplication -/

inductive SegmentType where
  | prompt
  | response
  deriving DecidableEq

/-- An entry of `segment_info`. -/
structure Segment where
  start : Nat
  stop : Nat
  originalIdx : Nat
  type : SegmentType
  groupIdx : Nat

/-- `reconstruction_info` after deduplication. -/
structure DedupInfo where
  segmentInfo : List Segment
  promptGroups : List (List Nat)
  promptLen : Nat
  originalBatchSize : Nat
  originalAttentionMask : List (List Bool)

/-- The response segments of a group, from the position `pos` on. -/
def responseSegments (responseLength groupIdx : Nat) : Nat → List Nat → List Segment
  | _, [] => []
  | pos, i :: rest =>
    ⟨pos, pos + responseLength, i, .response, groupIdx⟩ ::
      responseSegments responseLength groupIdx (pos + responseLength) rest

/-- The loop of `_dedup_input_ids` that fills `segment_info`. -/
def segmentInfo (promptLen responseLength : Nat) : Nat → Nat → List (List Nat) → List Segment
  | _, _, [] => []
  | groupIdx, pos, group :: groups =>
    group.map (fun i => ⟨pos, pos + promptLen, i, .prompt, groupIdx⟩) ++
      responseSegments responseLength groupIdx (pos + promptLen) group ++
      segmentInfo promptLen responseLength (groupIdx + 1)
        (pos + promptLen + group.length * responseLength) groups

/-- The concatenated rows: each group's prompt once, then the responses of the group. -/
def concatenated {β : Type} (prompt response : Nat → List β) (groups : List (List Nat)) :
    List β := groups.flatMap fun group => prompt (group.headD 0) ++ group.flatMap response

/-- `_dedup_input_ids`: the deduplicated ids, their mask and the reconstruction info. -/
def dedupInputIds {ι : Type} (b : Batch ι) (promptGroups : List (List Nat)) :
    List ι × List Bool × DedupInfo :=
  (concatenated b.prompt b.response promptGroups,
    concatenated b.promptMask b.responseMask promptGroups,
    { segmentInfo := segmentInfo b.promptLen b.responseLength 0 0 promptGroups
      promptGroups := promptGroups
      promptLen := b.promptLen
      originalBatchSize := b.size
      originalAttentionMask := b.attentionMask })

/-! ## Unpadding -/

/-- An entry of `segment_info` after unpadding. -/
structure PackedSegment extends Segment where
  numValidTokens : Nat

/-- `reconstruction_info` after unpadding. -/
structure PackedInfo where
  segmentInfo : List PackedSegment
  promptGroups : List (List Nat)
  promptLen : Nat
  originalBatchSize : Nat
  originalAttentionMask : List (List Bool)
  cuSeqlensPacked : List Nat
  maxSeqlenPacked : Nat

variable {α : Type}

/-- `tokens[:, unpad_indices]`: the tokens whose mask is set. -/
def unpad (tokens : List α) (mask : List Bool) : List α :=
  ((tokens.zip mask).filter fun e => e.2).map fun e => e.1

/-- Number of set entries of a mask. -/
def numValid (mask : List Bool) : Nat :=
  mask.count true

/-- A segment with the number of its valid tokens. -/
def packSegment (mask : List Bool) (seg : Segment) : PackedSegment :=
  { seg with numValidTokens := numValid (slice mask seg.start seg.stop) }

/-- `unpad_deduplicated_batch`, for one tensor of the batch; the maximum over an empty batch is
an error. -/
def unpadDeduplicatedBatch (dedup : List α) (mask : List Bool) (info : DedupInfo) :
    Option (List α × PackedInfo) := do
  let segments := info.segmentInfo.map (packSegment mask)
  let lengths := (range info.originalBatchSize).map fun i =>
    ((segments.filter fun seg => seg.originalIdx = i).map (·.numValidTokens)).sum
  let maxSeqlen ← lengths.max?
  some (unpad dedup mask,
    { segmentInfo := segments
      promptGroups := info.promptGroups
      promptLen := info.promptLen
      originalBatchSize := info.originalBatchSize
      originalAttentionMask := info.originalAttentionMask
      cuSeqlensPacked := cumulative lengths
      maxSeqlenPacked := maxSeqlen })

/-! ## Positions in the deduplicated tensor -/

/-- `sorted(keys)` of a dictionary. -/
def sortedKeys (keys : List Nat) : List Nat :=
  keys.dedup.mergeSort

/-- `segments_by_group[g]["prompt"]`: the first prompt segment of the group. -/
def groupPrompt (segments : List PackedSegment) (g : Nat) : Option PackedSegment :=
  segments.find? fun seg => seg.groupIdx = g ∧ seg.type = .prompt

/-- The response segments of a group. -/
def groupResponses (segments : List PackedSegment) (g : Nat) : List PackedSegment :=
  segments.filter fun seg => seg.groupIdx = g ∧ seg.type = .response

/-- `segments_by_group[g]["responses"][i]`: the last response segment of the sample. -/
def groupResponse (segments : List PackedSegment) (g i : Nat) : Option PackedSegment :=
  (groupResponses segments g).reverse.find? fun seg => seg.originalIdx = i

/-- An entry of `group_dedup_positions`. -/
structure GroupPositions where
  prompt : Nat × Nat
  responses : List (Nat × Nat × Nat)

/-- Positions of the responses of a group from `pos` on, and the position behind them. -/
def responsePositions (segments : List PackedSegment) (g : Nat) :
    Nat → List Nat → Option (List (Nat × Nat × Nat) × Nat)
  | pos, [] => some ([], pos)
  | pos, i :: rest => do
    let seg ← groupResponse segments g i
    let stop := pos + seg.numValidTokens
    let (positions, last) ← responsePositions segments g stop rest
    some ((i, pos, stop) :: positions, last)

/-- The loop that computes `group_dedup_positions`. -/
def groupDedupPositions (segments : List PackedSegment) :
    Nat → List Nat → Option (List (Nat × GroupPositions))
  | _, [] => some []
  | pos, g :: gs => do
    let seg ← groupPrompt segments g
    let promptEnd := pos + seg.numValidTokens
    let keys := sortedKeys ((groupResponses segments g).map (·.originalIdx))
    let (responses, last) ← responsePositions segments g promptEnd keys
    let rest ← groupDedupPositions segments last gs
    some ((g, ⟨(pos, promptEnd), responses⟩) :: rest)

/-- `group_dedup_positions` of a batch. -/
def dedupPositions (info : PackedInfo) : Option (List (Nat × GroupPositions)) :=
  groupDedupPositions info.segmentInfo 0 (sortedKeys (info.segmentInfo.map (·.groupIdx)))

/-- `sample_to_group[i]`: the last group that lists the sample. -/
def sampleToGroup (promptGroups : List (List Nat)) (i : Nat) : Option Nat :=
  (promptGroups.zipIdx.reverse.find? fun e => i ∈ e.1).map (·.2)

/-! ## Reconstruction and deduplication of packed tensors -/

/-- `_reconstruct_sequences_packed`. -/
def reconstructSequencesPacked (dedupHidden : List α) (info : PackedInfo) :
    Option (List α) := do
  let positions ← dedupPositions info
  let rows ← (range info.originalBatchSize).mapM fun i => do
    let g ← sampleToGroup info.promptGroups i
    let pos ← positions.lookup g
    let response ← pos.responses.lookup i
    some (slice dedupHidden pos.prompt.1 pos.prompt.2 ++ slice dedupHidden response.1 response.2)
  some rows.flatten

/-- Number of valid prompt tokens of a sample, by its own mask. -/
def numValidPrompt (info : PackedInfo) (i : Nat) : Nat :=
  numValid ((info.originalAttentionMask.getD i []).take info.promptLen)

/-- One segment of the loop that counts tokens; the state has `counted_prompts`. -/
def countSegment (acc : Nat × List Nat) (seg : PackedSegment) : Nat × List Nat :=
  match seg.type with
  | .prompt =>
    if seg.groupIdx ∈ acc.2 then acc
    else (acc.1 + seg.numValidTokens, seg.groupIdx :: acc.2)
  | .response => (acc.1 + seg.numValidTokens, acc.2)

/-- Valid tokens of the deduplicated batch: each prompt once, and all responses. -/
def totalDedupTokens (segments : List PackedSegment) : Nat :=
  (segments.foldl countSegment (0, [])).1

/-- The tokens of a sample in the packed tensor. -/
def sampleTokens (full : List α) (info : PackedInfo) (i : Nat) : Option (List α) := do
  let start ← info.cuSeqlensPacked[i]?
  let stop ← info.cuSeqlensPacked[i + 1]?
  some (slice full start stop)

/-- Place the response of one sample. -/
def placeResponse (full : List α) (info : PackedInfo) (pos : GroupPositions)
    (dedup : List α) (i : Nat) : Option (List α) := do
  let tokens ← sampleTokens full info i
  let response ← pos.responses.lookup i
  assign dedup response.1 response.2 (tokens.drop (numValidPrompt info i))

/-- Place the prompt and the responses of one group. -/
def placeGroup (full : List α) (info : PackedInfo)
    (positions : List (Nat × GroupPositions)) (dedup : List α) (e : List Nat × Nat) :
    Option (List α) := do
  let pos ← positions.lookup e.2
  let first ← e.1.head?
  let tokens ← sampleTokens full info first
  let dedup ← assign dedup pos.prompt.1 pos.prompt.2 (tokens.take (numValidPrompt info first))
  e.1.foldlM (placeResponse full info pos) dedup

/-- `_deduplicate_sequences_packed`. -/
def deduplicateSequencesPacked [Zero α] (fullHidden : List α) (info : PackedInfo) :
    Option (List α) := do
  let positions ← dedupPositions info
  info.promptGroups.zipIdx.foldlM (placeGroup fullHidden info positions)
    (replicate (totalDedupTokens info.segmentInfo) 0)

/-! ## Split attention -/

/-- The entries that `_extract_cu_seqlens` adds to `reconstruction_info`. -/
structure SplitInfo where
  cuSeqlensUniquePrompts : List Nat
  maxPromptValidLen : Nat
  promptLengths : List Nat
  reorderedSeqIdx : AList (fun _ : Nat => Nat)

/-- `reordered_seq_idx`: the position of every sample in group order. -/
def reorderedSeqIdx (promptGroups : List (List Nat)) : AList (fun _ : Nat => Nat) :=
  promptGroups.flatten.foldl (fun d i => d.insert i d.entries.length) ∅

/-- One write to `cu_seqlens_response`, before the sums are taken. -/
def placeResponseLength (info : PackedInfo) (reordered : AList (fun _ : Nat => Nat))
    (cu : List Nat) (i : Nat) : Option (List Nat) := do
  let start ← info.cuSeqlensPacked[i]?
  let stop ← info.cuSeqlensPacked[i + 1]?
  let slot ← reordered.lookup i
  if slot + 1 < cu.length then
    some (cu.set (slot + 1) (stop - numValidPrompt info i - start))
  else none

/-- Length of the prompt of a group. -/
def promptLength (info : PackedInfo) (reordered : AList (fun _ : Nat => Nat))
    (cuSeqlensResponse : List Nat) (group : List Nat) : Option Nat := do
  let first ← group.head?
  let slot ← reordered.lookup first
  let offset ← cuSeqlensResponse[slot]?
  let next ← cuSeqlensResponse[slot + 1]?
  let start ← info.cuSeqlensPacked[first]?
  let stop ← info.cuSeqlensPacked[first + 1]?
  some (stop - start - (next - offset))

/-- `_extract_cu_seqlens`: returns `cu_seqlens_response` and the entries it adds.  Every slot of
the response table but the first is written before the sums are taken. -/
def extractCuSeqlens (info : PackedInfo) : Option (List Nat × SplitInfo) := do
  let reordered := reorderedSeqIdx info.promptGroups
  let counts ← (range info.originalBatchSize).foldlM (placeResponseLength info reordered)
    (replicate (info.originalBatchSize + 1) 0)
  let cuSeqlensResponse := (counts.scanl (· + ·) 0).tail
  let lengths ← info.promptGroups.mapM (promptLength info reordered cuSeqlensResponse)
  let maxLen ← (0 :: lengths).max?
  some (cuSeqlensResponse,
    { cuSeqlensUniquePrompts := cumulative lengths
      maxPromptValidLen := maxLen
      promptLengths := 0 :: lengths
      reorderedSeqIdx := reordered })

/-- The loop of `_get_sequences_packed_from_dedup_tensor`; `packed` is the last entry of
`packed_prmpt_lengths`. -/
def placePrompts (dedup : List α) (split : SplitInfo) (cuSeqlensResponse : List Nat) :
    Nat → Nat → List (List Nat) → List α → Option (List α)
  | _, _, [], prompts => some prompts
  | id, packed, group :: groups, prompts => do
    let first ← group.head?
    let offset ← cuSeqlensResponse[first]?
    let len ← split.promptLengths[id + 1]?
    let start ← split.cuSeqlensUniquePrompts[id]?
    let stop ← split.cuSeqlensUniquePrompts[id + 1]?
    let seqOffset := packed + offset
    let prompts ← assign prompts start stop (slice dedup seqOffset (seqOffset + len))
    placePrompts dedup split cuSeqlensResponse (id + 1) (packed + len) groups prompts

/-- `_get_sequences_packed_from_dedup_tensor`; `uninit` is what `torch.empty` holds. -/
def getSequencesPackedFromDedupTensor (uninit : Nat → α) (dedup : List α)
    (info : PackedInfo) (split : SplitInfo) (cuSeqlensResponse : List Nat) : Option (List α) := do
  let total ← split.cuSeqlensUniquePrompts.getLast?
  placePrompts dedup split cuSeqlensResponse 0 0 info.promptGroups
    ((range total).map uninit)

/-- The response tokens of every group, from the dedup tensor. -/
def responseParts (dedup : List α) (split : SplitInfo) (cuSeqlensResponse : List Nat) :
    Nat → Nat → List (List Nat) → Option (List (List α))
  | _, _, [] => some []
  | gid, prev, group :: groups => do
    let lastSample ← group.getLast?
    let slot ← split.reorderedSeqIdx.lookup lastSample
    let offset ← split.cuSeqlensUniquePrompts[gid + 1]?
    let len ← cuSeqlensResponse[slot + 1]?
    let rest ← responseParts dedup split cuSeqlensResponse (gid + 1) len groups
    some (slice dedup (prev + offset) (offset + len) :: rest)

/-- `_get_responses_packed_from_dedup_tensor`. -/
def getResponsesPackedFromDedupTensor (dedup : List α) (info : PackedInfo)
    (split : SplitInfo) (cuSeqlensResponse : List Nat) : Option (List α) :=
  (responseParts dedup split cuSeqlensResponse 0 0 info.promptGroups).map flatten

/-- `group_sizes` of `Dedup_Cosine_Sine_Coeff`. -/
def groupSizes (promptGroups : List (List Nat)) : List Nat :=
  cumulative (promptGroups.map List.length)

/-- The loop of `_get_sequences_reconstructed_from_dedup_tensors`. -/
def joinParts (responseLengths sizes : List Nat) :
    Nat → List (List α) → List (List α) → Option (List (List α))
  | _, _, [] => some []
  | gid, prompts, part :: parts => do
    let prompt ← prompts[gid]?
    let first ← sizes[gid]?
    let last ← sizes[gid + 1]?
    let responses ← splitSizes (slice responseLengths first last) part
    let rest ← joinParts responseLengths sizes (gid + 1) prompts parts
    some (responses.map (prompt ++ ·) ++ rest)

/-- `_get_sequences_reconstructed_from_dedup_tensors`. -/
def getSequencesReconstructedFromDedupTensors (dedup promptPacked : List α)
    (info : PackedInfo) (split : SplitInfo) (cuSeqlensResponse sizes : List Nat) :
    Option (List α) := do
  let responseLengths := zipWith (· - ·) cuSeqlensResponse.tail cuSeqlensResponse
  let prompts ← splitSizes split.promptLengths.tail promptPacked
  let parts ← responseParts dedup split cuSeqlensResponse 0 0 info.promptGroups
  let rows ← joinParts responseLengths sizes 0 prompts parts
  some rows.flatten

/-- What the unpadded split attention is computed from, for one of the query, key and value
tensors. -/
structure SplitAttention (α : Type) where
  prompts : List α
  responses : List α
  sequences : List α
  cuSeqLensQ : List Nat
  cuSeqLensK : List Nat

/-- The layout part of `patched_forward_split_unpadded` with the flash-attention arguments of
`_prepare_attention_kwargs_and_masks`. -/
def splitAttention (uninit : Nat → α) (dedup : List α) (info : PackedInfo) :
    Option (SplitAttention α) := do
  let (cuSeqlensResponse, split) ← extractCuSeqlens info
  let sizes := groupSizes info.promptGroups
  let prompts ← getSequencesPackedFromDedupTensor uninit dedup info split cuSeqlensResponse
  let responses ← getResponsesPackedFromDedupTensor dedup info split cuSeqlensResponse
  let sequences ← getSequencesReconstructedFromDedupTensors dedup prompts info split
    cuSeqlensResponse sizes
  some ⟨prompts, responses, sequences, cuSeqlensResponse, info.cuSeqlensPacked⟩

/-- A batch from its rows to the packed form. -/
def createDeduplicatedBatch {ι : Type} [DecidableEq ι] (b : Batch ι) :
    Option (List ι × PackedInfo) := do
  let (groups, _) ← findPromptGroups b
  let (ids, mask, info) := dedupInputIds b groups
  unpadDeduplicatedBatch ids mask info

end ArcticPlatform.ZorroTrain
