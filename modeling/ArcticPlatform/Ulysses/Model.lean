import ArcticPlatform.Library.Meshes
import ArcticPlatform.Library.TensorViews

/-!
# Ulysses sequence parallelism and the shift model

A Ulysses model runs with tensor parallelism over the heads and sequence parallelism
over the tokens: around the attention every rank has its own tokens and the heads of
its tensor-parallel shard, and two exchanges give the attention all tokens and fewer
heads.  The shift model runs the same layers with tensor parallelism over all ranks
and on the same cache.  The model around the attention works on every token alone;
the attention is any function of the heads, their cache and the batch.
-/

namespace ArcticPlatform.Ulysses

open Meshes Tensors TensorViews List

/-! ## Sizes and groups -/

/-- Tensor and sequence parallelism, the heads of the model and their size. -/
structure Sizes where
  tp : Nat
  sp : Nat
  heads : Nat
  kvHeads : Nat
  headSize : Nat

namespace Sizes

variable (sz : Sizes)

/-- The ranks of one replica, `SP x TP`. -/
def allRanks : List (List Nat) :=
  (range sz.sp).map fun s => (range sz.tp).map fun t => s * sz.tp + t

/-- `all_ranks.transpose(4, 5)`. -/
def transposedRanks : List (List Nat) := swapAxes sz.tp sz.allRanks

/-- `SP_group_ranks`. -/
def spGroupRanks : List (List Nat) := sz.transposedRanks

/-- `SP_TP_group_ranks`: one group. -/
def spTpGroupRanks : List Nat := sz.transposedRanks.flatten

/-- The KV heads of a tensor-parallel shard. -/
def kvShare : Nat := max 1 (sz.kvHeads / sz.tp)

/-- `is_kv_replicated`. -/
def isKvReplicated : Bool := sz.kvShare < sz.sp

/-- `replication_factor`. -/
def replicationFactor : Nat := sz.sp / sz.kvShare

/-- `num_heads` of the attention of a Ulysses rank. -/
def numHeads : Nat := sz.heads / sz.tp / sz.sp

/-- `num_kv_heads` of the attention of a Ulysses rank. -/
def numKvHeads : Nat := if sz.isKvReplicated then 1 else sz.kvShare / sz.sp

/-- The head counts a model can be run with. -/
structure Valid : Prop where
  tp_pos : 0 < sz.tp
  sp_pos : 0 < sz.sp
  heads_pos : 0 < sz.heads
  kvHeads_pos : 0 < sz.kvHeads
  headSize_pos : 0 < sz.headSize
  heads_dvd : sz.tp * sz.sp ∣ sz.heads
  grouped : sz.kvHeads ∣ sz.heads
  sharded : sz.tp ∣ sz.kvHeads ∨ sz.kvHeads ∣ sz.tp
  share : sz.kvShare ∣ sz.sp ∨ sz.sp ∣ sz.kvShare

end Sizes

/-- How the projections of a tensor-parallel model are sharded: the query and the KV heads of
shard `r` of `n`. -/
structure Sharding where
  queryHeads : Nat → Nat → Nat → List Nat
  kvHeads : Nat → Nat → Nat → List Nat

/-- The sharding of vLLM: even shards of the heads; with fewer KV heads than shards, consecutive
shards hold a copy of one head. -/
structure Sharding.Documented (s : Sharding) : Prop where
  query : ∀ heads n r, n ∣ heads → r < n →
    s.queryHeads heads n r = row (heads / n) fun i => r * (heads / n) + i
  split : ∀ kvHeads n r, n ∣ kvHeads → r < n →
    s.kvHeads kvHeads n r = row (kvHeads / n) fun i => r * (kvHeads / n) + i
  replicate : ∀ kvHeads n r, kvHeads ∣ n → r < n → s.kvHeads kvHeads n r = [r / (n / kvHeads)]

/-! ## Heads and attention -/

section Heads

variable {α κ μ : Type}

/-- A head of a row. -/
def headOf (hs : Nat) (r : List α) (h : Nat) : List α := (r.drop (h * hs)).take hs

/-- The heads of a row, end to end. -/
def selectHeads (hs : Nat) (heads : List Nat) (r : List α) : List α := heads.flatMap (headOf hs r)

/-- One head of all tokens. -/
def column (hs : Nat) (rows : List (List α)) (h : Nat) : List (List α) := rows.map (headOf hs · h)

/-- An attention: what a query head gets from the cache and the tokens of its KV head, and what is
stored in the cache of a KV head.  Each step has its metadata. -/
structure Attention (α κ μ : Type) (hs : Nat) where
  attend : μ → κ → List (List α) → List (List α) → List (List α) → List (List α)
  store : μ → κ → List (List α) → List (List α) → κ
  length_attend : ∀ m c k v q, (attend m c k v q).length = q.length
  length_head : ∀ m c k v q, ∀ o ∈ attend m c k v q, o.length = hs

/-- `Attention.forward` on `nh` query and `nkv` KV heads: query head `i` reads
KV head `i // (nh // nkv)`. -/
def attentionForward [Inhabited κ] {hs : Nat} (a : Attention α κ μ hs) (nh nkv : Nat) (m : μ)
    (caches : List κ) (q k v : List (List α)) : List (List α) × List κ :=
  let outs := (range nh).map fun i =>
    let g := i / (nh / nkv)
    a.attend m (caches.getD g default) (column hs k g) (column hs v g) (column hs q i)
  ((range q.length).map fun t => outs.flatMap fun out => out.getD t [],
    (range nkv).map fun g => a.store m (caches.getD g default) (column hs k g) (column hs v g))

/-- The buffer a rank sends in the first exchange. -/
def packQkv (sz : Sizes) (q k v : List (List α)) : List (List α) :=
  let q3 := view q sz.sp (sz.numHeads * sz.headSize)
  let kv3 := fun t : List (List α) =>
    if sz.isKvReplicated then
      (view t (sz.sp / sz.replicationFactor) sz.headSize).map fun heads =>
        heads.flatMap fun head => List.replicate sz.replicationFactor head
    else view t sz.sp (sz.numKvHeads * sz.headSize)
  let qkv := zipWith3 (fun a b c => zipWith3 (fun x y z => x ++ y ++ z) a b c)
    q3 (kv3 k) (kv3 v)
  (swapAxes sz.sp qkv).flatten

/-- The output of a rank after the second exchange. -/
def unpackOutput (sz : Sizes) (c : List (List α)) : List (List α) :=
  let n := c.length / sz.sp
  (swapAxes n (chunks n sz.sp c)).map flatten

/-- `UlyssesAttention.forward` on the ranks of a sequence-parallel group, with the local
queries, keys and values and the cache of every rank. -/
def ulyssesAttention [Inhabited κ] (sz : Sizes) (a : Attention α κ μ sz.headSize) (m : μ)
    (caches : List (List κ)) (qkv : List (List (List α) × List (List α) × List (List α))) :
    List (List (List α) × List κ) :=
  if sz.sp = 1 then
    zipWith (fun cache (q, k, v) =>
      attentionForward a sz.numHeads sz.numKvHeads m cache q k v) caches qkv
  else
    let received := allToAll sz.sp (qkv.map fun (q, k, v) => packQkv sz q k v)
    let qw := sz.numHeads * sz.headSize
    let kw := sz.numKvHeads * sz.headSize
    let results := zipWith (fun cache buffer =>
      attentionForward a sz.numHeads sz.numKvHeads m cache
        (buffer.map fun r => r.take qw)
        (buffer.map fun r => (r.drop qw).take kw)
        (buffer.map fun r => (r.drop (qw + kw)).take kw)) caches received
    zipWith (fun c result => (unpackOutput sz c, result.2))
      (allToAll sz.sp (results.map (·.1))) results

end Heads

/-! ## The model -/

/-- A layer around the attention: the projections of a token and what it does with the output of
the attention. -/
structure Layer (X α : Type) (sz : Sizes) where
  q : X → List α
  k : X → List α
  v : X → List α
  post : X → List α → X
  length_q : ∀ x, (q x).length = sz.heads * sz.headSize
  length_k : ∀ x, (k x).length = sz.kvHeads * sz.headSize
  length_v : ∀ x, (v x).length = sz.kvHeads * sz.headSize

/-- A model that works on every token alone, apart from its attention. -/
structure Model (τ π X α ω : Type) (sz : Sizes) where
  embed : τ → π → X
  layers : List (Layer X α sz)
  output : X → ω

section Forward

variable {τ π X α κ μ ω : Type} [Inhabited κ] {sz : Sizes}

/-- The plain layer on all tokens and all heads. -/
def plainLayer (a : Attention α κ μ sz.headSize) (m : μ) (layer : Layer X α sz) (caches : List κ)
    (xs : List X) : List X × List κ :=
  let result := attentionForward a sz.heads sz.kvHeads m caches (xs.map layer.q) (xs.map layer.k)
    (xs.map layer.v)
  (zipWith layer.post xs result.1, result.2)

/-- The caches of a layer, by rank. -/
abbrev RankCaches (κ : Type) := List (List κ)

/-- A layer in shift mode: the shards of `SP_TP` in rank order, each with the cache of its
rank, and the row-parallel projection of their outputs. -/
def shiftLayer (s : Sharding) (a : Attention α κ μ sz.headSize) (m : μ) (layer : Layer X α sz)
    (caches : RankCaches κ) (xs : List X) : List X × RankCaches κ :=
  let n := sz.tp * sz.sp
  let results := (range n).map fun r =>
    let kv := s.kvHeads sz.kvHeads n r
    let q := s.queryHeads sz.heads n r
    attentionForward a q.length kv.length m (caches.getD (sz.spTpGroupRanks.getD r 0) [])
      (xs.map fun x => selectHeads sz.headSize q (layer.q x))
      (xs.map fun x => selectHeads sz.headSize kv (layer.k x))
      (xs.map fun x => selectHeads sz.headSize kv (layer.v x))
  (xs.zipIdx.map fun (x, t) => layer.post x (results.flatMap fun result => result.1.getD t []),
    (range n).map fun rank =>
      (results.getD (sz.spTpGroupRanks.idxOf rank) ([], [])).2)

/-- A layer in Ulysses mode on the tokens of the sequence-parallel ranks. -/
def ulyssesLayer (s : Sharding) (a : Attention α κ μ sz.headSize) (m : μ) (layer : Layer X α sz)
    (caches : RankCaches κ) (xs : List (List X)) : List (List X) × RankCaches κ :=
  let results := (range sz.tp).map fun t =>
    let kv := s.kvHeads sz.kvHeads sz.tp t
    let q := s.queryHeads sz.heads sz.tp t
    ulyssesAttention sz a m ((sz.spGroupRanks.getD t []).map fun rank => caches.getD rank [])
      (xs.map fun tokens =>
        (tokens.map fun x => selectHeads sz.headSize q (layer.q x),
          tokens.map fun x => selectHeads sz.headSize kv (layer.k x),
          tokens.map fun x => selectHeads sz.headSize kv (layer.v x)))
  (xs.zipIdx.map fun (tokens, i) => tokens.zipIdx.map fun (x, t) =>
      layer.post x (results.flatMap fun result => ((result.getD i ([], [])).1).getD t []),
    (range (sz.sp * sz.tp)).map fun rank =>
      ((results.getD (rank % sz.tp) []).getD (rank / sz.tp) ([], [])).2)

/-- The layers one after the other, each with its caches. -/
def runLayers {L S C : Type} (step : L → C → S → S × C) : List L → List C → S → S × List C
  | layer :: layers, c :: cs, xs =>
    let (xs, c) := step layer c xs
    let (xs, cs) := runLayers step layers cs xs
    (xs, c :: cs)
  | _, _, xs => (xs, [])

/-- The forward of the plain model. -/
def plainForward (M : Model τ π X α ω sz) (a : Attention α κ μ sz.headSize) (m : μ)
    (caches : List (List κ)) (tokens : List τ) (positions : List π) : List ω × List (List κ) :=
  let (xs, caches) := runLayers (plainLayer a m) M.layers caches
    (zipWith M.embed tokens positions)
  (xs.map M.output, caches)

/-- The forward of the shift model. -/
def shiftForward (M : Model τ π X α ω sz) (s : Sharding) (a : Attention α κ μ sz.headSize) (m : μ)
    (caches : List (RankCaches κ)) (tokens : List τ) (positions : List π) :
    List ω × List (RankCaches κ) :=
  let (xs, caches) := runLayers (shiftLayer s a m) M.layers caches
    (zipWith M.embed tokens positions)
  (xs.map M.output, caches)

/-- `ulysses_forward` on the ranks of the sequence-parallel groups: every rank slices the
batch, runs the model and gathers the outputs. -/
def ulyssesForward (M : Model τ π X α ω sz) (s : Sharding) (a : Attention α κ μ sz.headSize)
    (m : μ) (caches : List (RankCaches κ)) (tokens : List τ) (positions : List π) :
    List ω × List (RankCaches κ) :=
  let n := tokens.length / sz.sp
  let sliced := (range sz.sp).map fun spRank =>
    zipWith M.embed (Slices.slice tokens (n * spRank) (n * spRank + n))
      (Slices.slice positions (n * spRank) (n * spRank + n))
  let (xs, caches) := runLayers (ulyssesLayer s a m) M.layers caches sliced
  (xs.flatMap fun tokens => tokens.map M.output, caches)

end Forward

end ArcticPlatform.Ulysses
