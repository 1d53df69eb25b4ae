import ArcticPlatform.Library.Scatter
import ArcticPlatform.Library.Slices
import ArcticPlatform.Library.StableSort
import Mathlib.Algebra.Module.Defs

/-!
# Mixture of experts

An embedding of `TokenReorderer`, `MoE._run_routed_experts`,
`MoE._run_deepep_routed_experts` and `MoE.forward` of
`moe/layers/moe.py`, with `distributed/deepep.py`,
`distributed/token_permute.py` and `token_combine.py`.  Rows are values of a
module over the scores, an expert is a function of one row, and the ranks of a group run one
after the other.  The dispatch buffer delivers the tokens of a rank in any order.
-/

namespace ArcticPlatform.ExpertParallel

open Scatter Slices StableSort List

variable {V R : Type} [CommRing R] [AddCommGroup V] [Module R V]

/-! ## Rows -/

/-- `apply_routing_weights`. -/
def applyRoutingWeights (rows : List V) (scores : List R) : List V :=
  zipWith (fun row score => score • row) rows scores

/-- `rows[indices]`. -/
def gather (rows : List V) (indices : List Nat) : List V := indices.map fun i => rows.getD i 0

/-- `torch.searchsorted(sorted, t)`. -/
def searchsorted (sorted : List Nat) (t : Nat) : Nat := (sorted.takeWhile (· < t)).length

/-- `F.embedding_bag(bags, rows, starts, mode="sum")`. -/
def embeddingBag (bags : List Nat) (rows : List V) (starts : List Nat) : List V :=
  starts.zipIdx.map fun (start, t) =>
    ((slice bags start (starts.getD (t + 1) bags.length)).map fun i => rows.getD i 0).sum

/-- `sum_rows_by_token`. -/
def sumRowsByToken (rows : List V) (tokenIndices : List Nat) (numTokens : Nat) : List V :=
  let bags := argsort tokenIndices
  let sortedTokens := bags.map fun i => tokenIndices.getD i 0
  embeddingBag bags rows ((range numTokens).map (searchsorted sortedTokens))

/-! ## Experts -/

/-- The experts on rows that are packed by expert; rows behind the counts give zeros. -/
def runExperts (f : Nat → V → V) (rows : List V) (numTokensPerExpert : List Nat) : Option (List V) :=
  if rows.length < numTokensPerExpert.sum then none
  else do
    let splits ← splitSizes numTokensPerExpert (rows.take numTokensPerExpert.sum)
    let out := (splits.zipIdx.map fun (rows, e) => rows.map (f e)).flatten
    some (out ++ replicate (rows.length - numTokensPerExpert.sum) 0)

/-- `GroupedExperts.forward`. -/
def groupedExperts (f : Nat → V → V) (rows : List V) (numTokensPerExpert : List Nat)
    (scores : Option (List R)) : Option (List V) :=
  (runExperts f rows numTokensPerExpert).map fun out =>
    match scores with
    | none => out
    | some scores => applyRoutingWeights out scores

/-- `sonic_routed_experts`: the weighted sum over the local experts of each row. -/
def sonicRoutedExperts (f : Nat → V → V) (rows : List V) (expertIndices : List (List Int))
    (scores : List (List R)) : List V :=
  zipWith (fun row (entry : List Int × List R) =>
    ((entry.1.zip entry.2).filter (fun slot => 0 ≤ slot.1)
      |>.map fun slot => slot.2 • f slot.1.toNat row).sum) rows (expertIndices.zip scores)

/-! ## The local layer -/

/-- The shared expert gives one row for each row. -/
structure SharedExpert (V : Type) where
  run : List V → List V
  length_run : ∀ x, (run x).length = x.length

/-- The layer; `useSonic` says that the sonic kernel is enabled and applies to the experts. -/
structure Config (V : Type) where
  numExperts : Nat
  topK : Nat
  expert : Nat → V → V
  sharedExpert : Option (SharedExpert V)
  scoreBeforeExperts : Bool
  fp32RoutedWeighting : Bool
  useSonic : Bool

/-- The tokens of one rank and what the router selected for them. -/
structure Tokens (V R : Type) (topK : Nat) where
  x : List V
  selected : List (List Nat)
  scores : List (List R)
  nonempty : x ≠ []
  selected_length : selected.length = x.length
  scores_length : scores.length = x.length
  selected_topK : ∀ row ∈ selected, row.length = topK
  scores_topK : ∀ row ∈ scores, row.length = topK

/-- `torch.histc(l, bins, min=0, max=bins)` of whole numbers: the last bin holds the greatest
value too. -/
def histc (bins : Nat) (l : List Nat) : List Nat :=
  (range bins).map fun b => l.countP fun x => x = b ∨ (x = bins ∧ b + 1 = bins)

/-- `TokenReorderer.forward`. -/
def reorder (numExperts topK : Nat) (topScores : List (List R)) (selected : List (List Nat)) :
    List R × List Nat × List Nat :=
  let order := argsort selected.flatten
  (order.map fun i => topScores.flatten.getD i 0, order.map (· / topK),
    histc numExperts selected.flatten)

/-- `MoE._run_routed_experts`. -/
def runRoutedExperts (cfg : Config V) (x : List V) (tokenIndices numTokensPerExpert : List Nat)
    (scores : List R) : Option (List V) :=
  let routedInput := gather x tokenIndices
  if cfg.scoreBeforeExperts then
    groupedExperts cfg.expert (applyRoutingWeights routedInput scores) numTokensPerExpert
      (none : Option (List R))
  else if cfg.fp32RoutedWeighting then
    groupedExperts cfg.expert routedInput numTokensPerExpert (some scores)
  else
    (groupedExperts cfg.expert routedInput numTokensPerExpert (none : Option (List R))).map
      fun out => applyRoutingWeights out scores

/-- `out.scatter_add(0, index, src)`. -/
def scatterAddTo (out : List V) (index : List Nat) (src : List V) : List V :=
  zipWith (· + ·) out (scatterAdd out.length index src)

/-- `MoE.forward`, without expert parallelism. -/
def forward (cfg : Config V) (tokens : Tokens V R cfg.topK) : Option (List V) :=
  let (scores, tokenIndices, counts) :=
    reorder cfg.numExperts cfg.topK tokens.scores tokens.selected
  (runRoutedExperts cfg tokens.x tokenIndices counts scores).map fun routed =>
    let out := match cfg.sharedExpert with
      | some shared => shared.run tokens.x
      | none => replicate tokens.x.length 0
    scatterAddTo out tokenIndices routed

/-! ## Dispatch -/

/-- `permute_tokens`: the permuted rows, their scores and tokens, and the counts; nothing where it
raises. -/
def permuteTokens (hiddenStates : List V) (dispatchedIndices : List (List Int))
    (dispatchedScores : List (List R)) (numLocalExperts : Nat) :
    Option (List V × List R × List Nat × List Nat) :=
  let validExpertIds := dispatchedIndices.flatten.filter (· ≠ -1)
  let validScores := ((dispatchedIndices.flatten.zip dispatchedScores.flatten).filter
    fun entry => entry.1 ≠ -1).map Prod.snd
  -- `bincount` refuses negative ids
  if validExpertIds.any (· < 0) then none
  else
    let ids := validExpertIds.map Int.toNat
    let sortOrder := argsort ids
    let tokens := blockIndex (dispatchedIndices.map fun row => row.countP (· ≠ -1))
    let permutedIndices := sortOrder.map fun i => tokens.getD i 0
    let bins := max numLocalExperts (ids.foldl (fun n i => max n (i + 1)) 0)
    let numTokensPerExpert := (range bins).map fun e => ids.count e
    if numTokensPerExpert.length ≠ numLocalExperts then none
    else
      some (gather hiddenStates permutedIndices, sortOrder.map fun i => validScores.getD i 0,
        permutedIndices, numTokensPerExpert)

variable [DecidableEq R]

/-- `selected_experts_indices.masked_fill(top_scores == 0, -1)`. -/
def maskSelected (selected : List (List Nat)) (scores : List (List R)) : List (List Int) :=
  zipWith (zipWith fun (e : Nat) (s : R) => if s = 0 then -1 else (e : Int)) selected scores

/-- A token as a rank receives it: where it comes from, its row, the local ids of its experts and
their scores. -/
structure Delivery (V R : Type) where
  source : Nat × Nat
  row : V
  indices : List Int
  scores : List R

/-- The local ids on a rank: `-1` for experts of other ranks. -/
def localIndices (perRank rank : Nat) (indices : List Int) : List Int :=
  indices.map fun e =>
    if 0 ≤ e ∧ e / (perRank : Int) = rank then e % (perRank : Int) else -1

/-- A chunk that a rank sends: its rows, the masked experts and the scores. -/
structure Chunk (V R : Type) where
  rows : List V
  indices : List (List Int)
  scores : List (List R)

/-- What the buffer owes a rank: every token once that has an expert there. -/
def owed (perRank rank : Nat) (sent : List (Chunk V R)) : List (Delivery V R) :=
  sent.zipIdx.flatMap fun (chunk, source) =>
    (chunk.rows.zip (chunk.indices.zip chunk.scores)).zipIdx.filterMap fun (entry, i) =>
      let indices := localIndices perRank rank entry.2.1
      if indices.any (· ≠ -1) then some ⟨(source, i), entry.1, indices, entry.2.2⟩ else none

/-- The order in which the buffer delivers the tokens, in each round to each rank. -/
structure Buffer (V R : Type) where
  deliver : Nat → Nat → List (Delivery V R) → List (Delivery V R)
  once : ∀ round rank tokens, (deliver round rank tokens).Perm tokens

/-- `run_pending_chunk` up to the combine: the rows of one rank, one for each token it received. -/
def runPendingChunk (cfg : Config V) (perRank rank : Nat) (received : List (Delivery V R)) :
    Option (List V) :=
  let hiddenStates := received.map Delivery.row
  let indices := received.map Delivery.indices
  let scores := received.map Delivery.scores
  let expert := fun e => cfg.expert (rank * perRank + e)
  if cfg.useSonic ∧ !cfg.scoreBeforeExperts ∧ !cfg.fp32RoutedWeighting then
    some (sonicRoutedExperts expert hiddenStates indices scores)
  else do
    let (rows, permutedScores, permutedIndices, counts) ←
      permuteTokens hiddenStates indices scores perRank
    let routed ← if cfg.scoreBeforeExperts then
        groupedExperts expert (applyRoutingWeights rows permutedScores) counts
          (none : Option (List R))
      else groupedExperts expert rows counts (some permutedScores)
    some (sumRowsByToken routed permutedIndices received.length)

/-- What the buffer gives back: for each token the sum over the ranks that received it. -/
def combine (received : List (List (Delivery V R))) (outputs : List (List V)) (source i : Nat) : V :=
  ((received.zip outputs).map fun (tokens, rows) =>
    (((tokens.zip rows).filter fun entry => entry.1.source = (source, i)).map Prod.snd).sum).sum

/-- One round of dispatch, experts and combine; `sent` has the chunk of each rank. -/
def runRound (cfg : Config V) (perRank : Nat) (buffer : Buffer V R) (round : Nat)
    (sent : List (Chunk V R)) : Option (List (List V)) := do
  let received := (range sent.length).map fun rank =>
    buffer.deliver round rank (owed perRank rank sent)
  let outputs ← received.zipIdx.mapM fun (tokens, rank) => runPendingChunk cfg perRank rank tokens
  some (sent.zipIdx.map fun (chunk, source) =>
    (range chunk.rows.length).map (combine received outputs source))

/-! ## Chunks -/

/-- `deepep_token_chunk_size or x.shape[0]`. -/
def chunkSize (deepepTokenChunkSize : Option Nat) (numTokens : Nat) : Nat :=
  match deepepTokenChunkSize with
  | some (n + 1) => n + 1
  | _ => numTokens

/-- The number of rounds, agreed on by the ranks. -/
def numChunks (deepepTokenChunkSize : Option Nat) (lens : List Nat) : Nat :=
  match deepepTokenChunkSize with
  | some (n + 1) => (lens.map fun len => (len + (n + 1) - 1) / (n + 1)).foldl max 0
  | _ => 1

/-- The chunks of a rank, padded with chunks of one token. -/
def chunkBounds (size numTokens rounds : Nat) : List (Nat × Nat) :=
  let bounds := (range ((numTokens + size - 1) / size)).map fun c =>
    (c * size, min (c * size + size) numTokens)
  bounds ++ replicate (rounds - bounds.length) (0, 1)

/-- `dispatch_chunk`. -/
def sendChunk {topK : Nat} (tokens : Tokens V R topK) (bounds : Nat × Nat) : Chunk V R :=
  let (start, stop) := bounds
  ⟨slice tokens.x start stop,
    maskSelected (slice tokens.selected start stop) (slice tokens.scores start stop),
    slice tokens.scores start stop⟩

/-- `MoE._run_deepep_routed_experts` on the ranks of a group. -/
def runDeepepRoutedExperts (cfg : Config V) (perRank : Nat) (buffer : Buffer V R)
    (deepepTokenChunkSize : Option Nat) (ranks : List (Tokens V R cfg.topK)) :
    Option (List (List V)) := do
  let rounds := numChunks deepepTokenChunkSize (ranks.map fun tokens => tokens.x.length)
  let bounds := ranks.map fun tokens =>
    chunkBounds (chunkSize deepepTokenChunkSize tokens.x.length) tokens.x.length rounds
  let outputs ← (range rounds).mapM fun round =>
    runRound cfg perRank buffer round
      (zipWith (fun tokens bounds => sendChunk tokens (bounds.getD round (0, 1))) ranks bounds)
  some (ranks.zipIdx.map fun (tokens, rank) =>
    let routed := (outputs.flatMap fun rows => rows.getD rank []).take tokens.x.length
    match cfg.sharedExpert with
    | none => routed
    | some shared => zipWith (· + ·) (shared.run tokens.x) routed)

end ArcticPlatform.ExpertParallel
