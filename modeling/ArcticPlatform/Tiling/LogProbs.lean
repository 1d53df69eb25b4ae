import ArcticPlatform.Library.Chunks

/-!
# Tiled log-probabilities

In memory mode the head of the model is applied to tiles of the extracted rows, in the
forward and once more in the backward.  All ranks agree on the number of tiles, the
largest that any of them needs, so that they apply the head equally often.  The rows are
cut by `torch.chunk`, which may give fewer tiles than that.

Main results:

- Theorem `forward_eq`: the forward with as many tiles as were asked for.
- Theorem `backward_eq`: the backward of any number of tiles.
- Theorem `tiledLogProbs_agree_iff`: when the ranks agree with the plain head.
-/

namespace ArcticPlatform.Tiling

open Chunks Results List

/-! ## The head of one tile -/

/-- What a call raises. -/
inductive Error where
  | shapeMismatch
  | indexOutOfRange
  | value
  | type
  | outOfBounds
  deriving DecidableEq

/-- The arithmetic of the head: a row of hidden states is projected to a row of logits, whose
log-probability and entropy belong to a label.  `grad` is the gradient of a row of hidden states
out of the incoming gradients of the row's entropy and log-probability. -/
structure Numerics (η ℓ ι α τ γ : Type) where
  float : η → η
  lmHead : η → ℓ
  floatLogits : ℓ → ℓ
  one : τ
  /-- `logits.div_(temperature.clamp(min=1e-8))` -/
  scale : τ → ℓ → ℓ
  /-- With the entropy or without it the log-probability has its own kernel. -/
  logprob : Bool → ℓ → ι → α
  entropy : ℓ → ι → α
  grad : η → ι → Option α → α → γ

/-- How the logits are computed. -/
structure Options where
  logitsComputeFromFp32Inputs : Bool
  logitsComputeInFp32 : Bool

section

variable {η ℓ ι α τ γ : Type} [DecidableEq τ]

/-- `lm_head_logits`, for one row. -/
def lmHeadLogits (num : Numerics η ℓ ι α τ γ) (opt : Options) (temperature : τ) (hidden : η) : ℓ :=
  let hidden := if opt.logitsComputeFromFp32Inputs then num.float hidden else hidden
  let logits := num.lmHead hidden
  let logits := if opt.logitsComputeInFp32 then num.floatLogits logits else logits
  if temperature ≠ num.one then num.scale temperature logits else logits

/-- What the head gives for a tile: log-probabilities and, where they are asked for, entropies. -/
abbrev TileOutput (α : Type) := List α × Option (List α)

/-- `tiled_logprobs_entropy_from_hidden`. -/
def tiledLogprobsEntropyFromHidden (num : Numerics η ℓ ι α τ γ) (opt : Options) (temperature : τ)
    (calculateEntropy : Bool) (hidden : List η) (labels : List ι) : Except Error (TileOutput α) :=
  if hidden.length ≠ labels.length then .error .shapeMismatch
  else
    let logits := hidden.map (lmHeadLogits num opt temperature)
    .ok (zipWith (num.logprob calculateEntropy) logits labels,
      if calculateEntropy then some (zipWith num.entropy logits labels) else none)

/-! ## The forward -/

/-- What the tiles of the call give, and the number of times the head was applied: a tile that is
not there ends the loop. -/
def applyTiles (fn : List η → List ι → Except Error (TileOutput α)) (hiddenShards : List (List η))
    (labelsShards : List (List ι)) : List Nat → Nat × Except Error (List (TileOutput α))
  | [] => (0, .ok [])
  | idx :: rest =>
    match hiddenShards[idx]?, labelsShards[idx]? with
    | some hidden, some labels =>
      match fn hidden labels with
      | .error e => (1, .error e)
      | .ok out =>
        let (calls, outs) := applyTiles fn hiddenShards labelsShards rest
        (calls + 1, outs.map (out :: ·))
    | _, _ => (0, .error .indexOutOfRange)

/-- `torch.cat(entropy_shards)`: all of them have to be there. -/
def catEntropies (outs : List (TileOutput α)) : Except Error (List α) :=
  match outs.mapM (·.2) with
  | some entropies => .ok entropies.flatten
  | none => .error .type

/-- `TiledLogProbEntropy.forward`, and the number of times it applied the head. -/
def forward (num : Numerics η ℓ ι α τ γ) (opt : Options) (temperature : τ) (calculateEntropy : Bool)
    (shards : Nat) (hidden : List η) (labels : List ι) : Nat × Except Error (TileOutput α) :=
  let (calls, outs) := applyTiles (tiledLogprobsEntropyFromHidden num opt temperature calculateEntropy)
    (chunk shards hidden) (chunk shards labels) (range shards)
  (calls, do
    let outs ← outs
    -- the results are unpacked, so there has to be one
    if outs.isEmpty then .error .value
    let entropy ← if calculateEntropy then some <$> catEntropies outs else pure none
    return ((outs.map (·.1)).flatten, entropy))

/-! ## The backward -/

/-- The state of the backward: what was added to the gradient of every row, the number of times the
head was applied, and for every tile the flag of every parameter while the tile was replayed. -/
structure Replay (γ : Type) where
  hsGrad : List (List γ)
  calls : Nat
  ready : List (List Bool)

/-- What is added to the rows of a view of the gradient. -/
def addAt (grad : List (List γ)) (offset : Nat) (rows : List γ) : Except Error (List (List γ)) :=
  if offset + rows.length ≤ grad.length then
    .ok (grad.take offset ++
      zipWith (fun acc g => acc ++ [g]) (grad.drop offset) rows ++ grad.drop (offset + rows.length))
  else .error .outOfBounds

/-- `grads.view(-1).narrow(0, start, length)`. -/
def narrow (grads : List α) (start length : Nat) : Except Error (List α) :=
  if start + length ≤ grads.length then .ok ((grads.drop start).take length)
  else .error .outOfBounds

/-- The gradients of the rows of a tile, each out of the row's own incoming gradients. -/
def tileGrads (num : Numerics η ℓ ι α τ γ) (hidden : List η) (labels : List ι)
    (entropyGrads : Option (List α)) (logprobsGrads : List α) : List γ :=
  let entropyGrads := match entropyGrads with
    | some grads => grads.map some
    | none => logprobsGrads.map fun _ => none
  zipWith (fun row grads => num.grad row.1 row.2 grads.1 grads.2) (hidden.zip labels)
    (entropyGrads.zip logprobsGrads)

/-- What a backward is given: the saved rows and labels as tiles, and the incoming gradients. -/
structure Saved (η ι α : Type) where
  hsShards : List (List η)
  labelsShards : List (List ι)
  entropyGrads : List α
  logprobsGrads : List α

/-- One tile of the backward. -/
def replayTile (num : Numerics η ℓ ι α τ γ) (opt : Options) (temperature : τ) (calculateEntropy : Bool)
    (computeParams : Nat) (deferred : Bool) (saved : Saved η ι α) (i : Nat) (hsShard : List η)
    (s : Replay γ) : Except Error (Replay γ) := do
  let some labels := saved.labelsShards[i]? | .error .indexOutOfRange
  let labelsStep := (saved.labelsShards.headD []).length
  let shardStep := (saved.hsShards.headD []).length
  let gradIsReady := if deferred then false else decide (i + 1 = saved.hsShards.length)
  let out ← tiledLogprobsEntropyFromHidden num opt temperature calculateEntropy hsShard labels
  let entropyGrads ← match out.2 with
    | some _ => some <$> narrow saved.entropyGrads (i * labelsStep) labels.length
    | none => pure none
  let logprobsGrads ← narrow saved.logprobsGrads (i * labelsStep) labels.length
  let hsGrad ← addAt s.hsGrad (i * shardStep) (tileGrads num hsShard labels entropyGrads logprobsGrads)
  return ⟨hsGrad, s.calls + 1, s.ready ++ [replicate computeParams gradIsReady]⟩

/-- The tiles of the backward from the `i`-th on. -/
def replayTiles (num : Numerics η ℓ ι α τ γ) (opt : Options) (temperature : τ) (calculateEntropy : Bool)
    (computeParams : Nat) (deferred : Bool) (saved : Saved η ι α) :
    Nat → List (List η) → Replay γ → Except Error (Replay γ)
  | _, [], s => .ok s
  | i, hsShard :: rest, s => do
    let s ← replayTile num opt temperature calculateEntropy computeParams deferred saved i hsShard s
    replayTiles num opt temperature calculateEntropy computeParams deferred saved (i + 1) rest s

/-- `TiledLogProbEntropy.backward`: `requiresGrad` are the flags of the parameters. -/
def backward (num : Numerics η ℓ ι α τ γ) (opt : Options) (temperature : τ) (calculateEntropy : Bool)
    (requiresGrad : List Bool) (deferred : Bool) (shards : Nat) (hidden : List η) (labels : List ι)
    (logprobsGrads entropyGrads : List α) : Except Error (Replay γ) :=
  let computeParams := (requiresGrad.filter id).length
  let saved := ⟨chunk shards hidden, chunk shards labels, entropyGrads, logprobsGrads⟩
  replayTiles num opt temperature calculateEntropy computeParams deferred saved 0 saved.hsShards
    ⟨replicate hidden.length [], 0, []⟩

/-! ## The ranks -/

/-- The extracted rows of a rank and their labels. -/
structure Rank (η ι : Type) where
  hidden : List η
  labels : List ι
  labelled : labels.length = hidden.length
  nonempty : 0 < hidden.length

/-- The number of tiles that a rank needs for its rows. -/
def localNumShards (chunkRows : Nat) (rank : Rank η ι) : Nat :=
  max 1 ((rank.hidden.length + chunkRows - 1) / chunkRows)

/-- The number of tiles of all ranks. -/
def numShards (chunkRows : Nat) (ranks : List (Rank η ι)) : Nat :=
  (ranks.map (localNumShards chunkRows)).foldl max 1

/-! ## The forward of a rank -/

variable {num : Numerics η ℓ ι α τ γ} {opt : Options} {temperature : τ} {calculateEntropy : Bool}

theorem tiledLogprobsEntropyFromHidden_eq {hidden : List η} {labels : List ι}
    (h : labels.length = hidden.length) :
    tiledLogprobsEntropyFromHidden num opt temperature calculateEntropy hidden labels =
      .ok (zipWith (num.logprob calculateEntropy) (hidden.map (lmHeadLogits num opt temperature)) labels,
        if calculateEntropy then
          some (zipWith num.entropy (hidden.map (lmHeadLogits num opt temperature)) labels)
        else none) := if_neg (not_not.mpr h.symm)

theorem applyTiles_eq {fn : List η → List ι → Except Error (TileOutput α)} {out : Nat → TileOutput α}
    {hiddenShards : List (List η)} {labelsShards : List (List ι)} {places : List Nat}
    (h : ∀ i ∈ places, ∃ hidden labels, hiddenShards[i]? = some hidden ∧ labelsShards[i]? = some labels ∧
      fn hidden labels = .ok (out i)) :
    applyTiles fn hiddenShards labelsShards places = (places.length, .ok (places.map out)) := by
  induction places with
  | nil => rfl
  | cons i rest ih =>
    obtain ⟨hidden, labels, hhidden, hlabels, hfn⟩ := h i mem_cons_self
    simp only [applyTiles, hhidden, hlabels, hfn, ih fun j hj => h j (mem_cons_of_mem _ hj)]
    rfl

/-- The log-probabilities of all rows. -/
def logprobsOf (num : Numerics η ℓ ι α τ γ) (opt : Options) (temperature : τ) (calculateEntropy : Bool)
    (hidden : List η) (labels : List ι) : List α :=
  zipWith (num.logprob calculateEntropy) (hidden.map (lmHeadLogits num opt temperature)) labels

/-- The entropies of all rows. -/
def entropiesOf (num : Numerics η ℓ ι α τ γ) (opt : Options) (temperature : τ)
    (hidden : List η) (labels : List ι) : List α :=
  zipWith num.entropy (hidden.map (lmHeadLogits num opt temperature)) labels

variable (num opt temperature calculateEntropy) in
/-- With as many tiles as were asked for the forward gives what the head gives for all rows. -/
theorem forward_eq {shards : Nat} (rank : Rank η ι) (hshards : 0 < shards)
    (h : (chunk shards rank.hidden).length = shards) :
    forward num opt temperature calculateEntropy shards rank.hidden rank.labels =
      (shards, tiledLogprobsEntropyFromHidden num opt temperature calculateEntropy rank.hidden
        rank.labels) := by
  have hlength : ∀ {β : Type} {l : List β}, l.length = rank.hidden.length →
      (chunk shards l).length = shards := by
    intro β l hl
    rw [length_chunk, hl, ← length_chunk, h]
  have hlabels := hlength rank.labelled
  have hpos : 0 < rank.labels.length := rank.labelled ▸ rank.nonempty
  let step := stepOf shards rank.hidden.length
  let logprobs := logprobsOf num opt temperature calculateEntropy rank.hidden rank.labels
  let entropies := entropiesOf num opt temperature rank.hidden rank.labels
  have hlogprobs : logprobs.length = rank.hidden.length := by
    simp [logprobs, logprobsOf, rank.labelled]
  have hentropies : entropies.length = rank.hidden.length := by
    simp [entropies, entropiesOf, rank.labelled]
  -- the tiles of the results are the results of the tiles
  have htile : ∀ {β : Type} {l : List β}, l.length = rank.hidden.length →
      ((range shards).map fun i => (l.drop (i * step)).take step).flatten = l := by
    intro β l hl
    have heq := chunk_eq_map hshards (hl ▸ rank.nonempty) (hlength hl)
    rw [hl] at heq
    rw [← heq, flatten_chunk]
  let out : Nat → TileOutput α := fun i =>
    ((logprobs.drop (i * step)).take step,
      if calculateEntropy then some ((entropies.drop (i * step)).take step) else none)
  have htiles : applyTiles (tiledLogprobsEntropyFromHidden num opt temperature calculateEntropy)
      (chunk shards rank.hidden) (chunk shards rank.labels) (range shards) =
        ((range shards).length, .ok ((range shards).map out)) :=
    applyTiles_eq (by
      intro i hi
      have hi : i < shards := mem_range.mp hi
      refine ⟨(rank.hidden.drop (i * step)).take step, (rank.labels.drop (i * step)).take step, ?_, ?_, ?_⟩
      · rw [chunk_eq_map hshards rank.nonempty h, getElem?_map, getElem?_range hi]
        rfl
      · rw [chunk_eq_map hshards hpos hlabels, getElem?_map, getElem?_range hi, rank.labelled]
        rfl
      · rw [tiledLogprobsEntropyFromHidden_eq (by simp [rank.labelled])]
        simp only [out, logprobs, entropies, logprobsOf, entropiesOf, map_take, map_drop,
          take_zipWith, drop_zipWith])
  have hne : ((range shards).map out).isEmpty = false := by
    rw [isEmpty_eq_false_iff, Ne, map_eq_nil_iff, range_eq_nil]
    omega
  simp only [forward, htiles, length_range, bind_ok, hne, Bool.false_eq_true, if_false, map_map]
  rw [tiledLogprobsEntropyFromHidden_eq rank.labelled]
  have hfirst : ((range shards).map ((·.1) ∘ out)).flatten = logprobs := htile hlogprobs
  rw [hfirst]
  cases calculateEntropy with
  | false => rfl
  | true =>
    have hcat : catEntropies ((range shards).map out) = .ok entropies := by
      have hsome : ((range shards).map out).mapM (·.2) =
          some ((range shards).map fun i => (entropies.drop (i * step)).take step) := by
        rw [mapM_map]
        exact mapM_eq_some_map fun i _ => rfl
      simp only [catEntropies, hsome, htile hentropies]
    simp only [hcat, if_true]
    rfl

theorem getElem?_of_applyTiles {fn : List η → List ι → Except Error (TileOutput α)}
    {hiddenShards : List (List η)} {labelsShards : List (List ι)} {places : List Nat}
    {outs : List (TileOutput α)} (h : (applyTiles fn hiddenShards labelsShards places).2 = .ok outs) :
    ∀ i ∈ places, i < hiddenShards.length := by
  induction places generalizing outs with
  | nil => simp
  | cons i rest ih =>
    rw [applyTiles] at h
    split at h
    · next hidden labels hhidden _ =>
      split at h
      · cases h
      · next out _ =>
        cases hrest : (applyTiles fn hiddenShards labelsShards rest).2 with
        | error e =>
          simp only [hrest] at h
          cases h
        | ok outs' =>
          intro j hj
          rcases mem_cons.mp hj with rfl | hj
          · exact (List.getElem?_eq_some_iff.mp hhidden).1
          · exact ih hrest j hj
    · cases h

/-! ## The backward of a rank -/

variable (num) in
omit [DecidableEq τ] in
theorem length_tileGrads {hidden : List η} {labels : List ι} (entropyGrads : Option (List α))
    {logprobsGrads : List α} (hlabels : labels.length = hidden.length)
    (hlogprobs : logprobsGrads.length = hidden.length)
    (hentropies : ∀ grads ∈ entropyGrads, grads.length = hidden.length) :
    (tileGrads num hidden labels entropyGrads logprobsGrads).length = hidden.length := by
  cases entropyGrads with
  | none => simp [tileGrads, hlabels, hlogprobs]
  | some grads => simp [tileGrads, hlabels, hlogprobs, hentropies grads rfl]

omit [DecidableEq τ] in
theorem tileGrads_slice (o k : Nat) (hidden : List η) (labels : List ι) (entropyGrads : Option (List α))
    (logprobsGrads : List α) :
    tileGrads num ((hidden.drop o).take k) ((labels.drop o).take k)
        (entropyGrads.map fun grads => (grads.drop o).take k) ((logprobsGrads.drop o).take k) =
      ((tileGrads num hidden labels entropyGrads logprobsGrads).drop o).take k := by
  cases entropyGrads with
  | none =>
    simp only [tileGrads, Option.map_none, zip_eq_zipWith, take_zipWith, drop_zipWith,
      map_take, map_drop]
  | some grads =>
    simp only [tileGrads, Option.map_some, zip_eq_zipWith, take_zipWith, drop_zipWith,
      map_take, map_drop]

theorem narrow_eq {β : Type} {grads : List α} {l : List β} {o k : Nat} (h : grads.length = l.length)
    (ho : o ≤ l.length) :
    narrow grads o ((l.drop o).take k).length = .ok ((grads.drop o).take k) := by
  have hle : o + ((l.drop o).take k).length ≤ grads.length := by
    rw [length_take, length_drop]
    omega
  rw [narrow, if_pos hle, length_take, length_drop, ← h, ← length_drop, ← take_eq_take_min]

/-- Every row before `o` has its gradient, once. -/
def gradsUpTo (grads : List γ) (o : Nat) : List (List γ) :=
  (grads.take o).map ([·]) ++ replicate (grads.length - o) []

theorem addAt_eq {grads : List γ} {o k : Nat} (ho : o ≤ grads.length) :
    addAt (gradsUpTo grads o) o ((grads.drop o).take k) = .ok (gradsUpTo grads (o + k)) := by
  have hzip : ∀ (rows : List γ) (m : Nat), rows.length ≤ m →
      zipWith (fun acc g => acc ++ [g]) (replicate m []) rows = rows.map ([·]) := by
    intro rows
    induction rows with
    | nil => simp
    | cons g rows ih =>
      intro m hm
      obtain ⟨m, rfl⟩ : ∃ m', m = m' + 1 := ⟨m - 1, by rw [length_cons] at hm; omega⟩
      rw [length_cons] at hm
      rw [replicate_succ, zipWith_cons_cons, ih m (by omega)]
      rfl
  have hdone : ((grads.take o).map ([·])).length = o := by simp [ho]
  have hlength : ((grads.drop o).take k).length = min k (grads.length - o) := by simp
  have htotal : (gradsUpTo grads o).length = grads.length := by simp [gradsUpTo, ho]
  have hfits : o + ((grads.drop o).take k).length ≤ (gradsUpTo grads o).length := by omega
  rw [addAt, if_pos hfits]
  congr 1
  have hrest : grads.length - o - min k (grads.length - o) = grads.length - (o + k) := by omega
  simp only [gradsUpTo]
  rw [take_left' hdone, drop_left' hdone, hzip _ _ (by omega), take_add, map_append,
    ← drop_drop, drop_left' hdone, drop_replicate, hlength, hrest]

section Backward

variable {shards computeParams : Nat} {deferred : Bool} {rank : Rank η ι} {entropyGrads logprobsGrads : List α}

/-- What the backward saved. -/
def savedOf (shards : Nat) (rank : Rank η ι) (entropyGrads logprobsGrads : List α) : Saved η ι α :=
  ⟨chunk shards rank.hidden, chunk shards rank.labels, entropyGrads, logprobsGrads⟩

/-- The flags of the parameters while a tile is replayed: they are ready in the last one, and in none
when another reduces them. -/
def readyFlags (computeParams : Nat) (deferred : Bool) (tiles i : Nat) : List Bool :=
  replicate computeParams (!deferred && decide (i + 1 = tiles))

variable (opt temperature computeParams deferred) in
/-- A tile adds the gradients of its rows. -/
theorem replayTile_eq (hshards : 0 < shards) (hlogprobs : logprobsGrads.length = rank.hidden.length)
    (hentropies : entropyGrads.length = rank.hidden.length) {i : Nat}
    (hi : i * stepOf shards rank.hidden.length < rank.hidden.length) {s : Replay γ}
    (hs : s.hsGrad = gradsUpTo (tileGrads num rank.hidden rank.labels
      (if calculateEntropy then some entropyGrads else none) logprobsGrads)
        (i * stepOf shards rank.hidden.length)) :
    replayTile num opt temperature calculateEntropy computeParams deferred
        (savedOf shards rank entropyGrads logprobsGrads) i
        ((rank.hidden.drop (i * stepOf shards rank.hidden.length)).take
          (stepOf shards rank.hidden.length)) s =
      .ok ⟨gradsUpTo (tileGrads num rank.hidden rank.labels
          (if calculateEntropy then some entropyGrads else none) logprobsGrads)
          ((i + 1) * stepOf shards rank.hidden.length), s.calls + 1,
        s.ready ++ [readyFlags computeParams deferred (chunk shards rank.hidden).length i]⟩ := by
  have hpos : 0 < rank.labels.length := rank.labelled ▸ rank.nonempty
  have hlabels : (savedOf shards rank entropyGrads logprobsGrads).labelsShards[i]? =
      some ((rank.labels.drop (i * stepOf shards rank.hidden.length)).take
        (stepOf shards rank.hidden.length)) := by
    have hget := getElem?_chunk hshards hpos i
    rw [rank.labelled] at hget
    exact hget.trans (if_pos hi)
  have hlabelsStep : ((savedOf shards rank entropyGrads logprobsGrads).labelsShards.headD []).length =
      stepOf shards rank.hidden.length := by
    have hhead := length_headD_chunk hshards hpos
    rwa [rank.labelled] at hhead
  have hshardStep : ((savedOf shards rank entropyGrads logprobsGrads).hsShards.headD []).length =
      stepOf shards rank.hidden.length := length_headD_chunk hshards rank.nonempty
  generalize hstep : stepOf shards rank.hidden.length = step at *
  have hgrads := length_tileGrads num (if calculateEntropy then some entropyGrads else none) rank.labelled
    hlogprobs (by
      intro grads hgrads
      split at hgrads
      · rwa [← Option.some.inj hgrads]
      · cases hgrads)
  have hadd := addAt_eq (k := step) (le_of_lt (hgrads ▸ hi))
  have hready : (if deferred then false
      else decide (i + 1 = (savedOf shards rank entropyGrads logprobsGrads).hsShards.length)) =
        (!deferred && decide (i + 1 = (chunk shards rank.hidden).length)) := by
    cases deferred <;> rfl
  have hle : i * step ≤ rank.labels.length := rank.labelled ▸ le_of_lt hi
  have hnarrow : ∀ {grads : List α}, grads.length = rank.hidden.length →
      narrow grads (i * step) ((rank.labels.drop (i * step)).take step).length =
        .ok ((grads.drop (i * step)).take step) :=
    fun h => narrow_eq (h.trans rank.labelled.symm) hle
  simp only [replayTile, hlabels, hlabelsStep, hshardStep, hready]
  rw [tiledLogprobsEntropyFromHidden_eq (by simp [rank.labelled]), bind_ok, hs, Nat.succ_mul]
  rw [← tileGrads_slice] at hadd
  cases calculateEntropy with
  | false =>
    simp only [Bool.false_eq_true, if_false, Option.map_none] at hadd ⊢
    simp only [savedOf, hnarrow hlogprobs, bind_ok, hadd, pure_bind]
    rfl
  | true =>
    simp only [if_true, Option.map_some] at hadd ⊢
    simp only [savedOf, hnarrow hlogprobs, hnarrow hentropies, bind_ok, Except.map_ok, hadd]
    rfl

variable (num opt temperature calculateEntropy computeParams deferred) in
theorem replayTiles_eq (hshards : 0 < shards) (hlogprobs : logprobsGrads.length = rank.hidden.length)
    (hentropies : entropyGrads.length = rank.hidden.length) {i : Nat} {todo : List (List η)} {s : Replay γ}
    (htodo : (chunk shards rank.hidden).drop i = todo)
    (hs : s.hsGrad = gradsUpTo (tileGrads num rank.hidden rank.labels
      (if calculateEntropy then some entropyGrads else none) logprobsGrads)
        (i * stepOf shards rank.hidden.length)) :
    replayTiles num opt temperature calculateEntropy computeParams deferred
        (savedOf shards rank entropyGrads logprobsGrads) i todo s =
      .ok ⟨gradsUpTo (tileGrads num rank.hidden rank.labels
          (if calculateEntropy then some entropyGrads else none) logprobsGrads)
          ((i + todo.length) * stepOf shards rank.hidden.length), s.calls + todo.length,
        s.ready ++ (range' i todo.length).map
          (readyFlags computeParams deferred (chunk shards rank.hidden).length)⟩ := by
  induction todo generalizing i s with
  | nil =>
    have hstate : s = ⟨s.hsGrad, s.calls, s.ready⟩ := rfl
    rw [replayTiles, hstate, hs]
    simp
  | cons tile rest ih =>
    have hget : (chunk shards rank.hidden)[i]? = some tile := by
      rw [← add_zero i, ← getElem?_drop, htodo]
      rfl
    have hrest : (chunk shards rank.hidden).drop (i + 1) = rest := by
      rw [← drop_drop, htodo]
      rfl
    rw [getElem?_chunk hshards rank.nonempty] at hget
    by_cases hi : i * stepOf shards rank.hidden.length < rank.hidden.length
    · rw [if_pos hi] at hget
      have htile := replayTile_eq opt temperature computeParams deferred hshards hlogprobs hentropies hi hs
      rw [← Option.some.inj hget, replayTiles, htile, bind_ok, ih hrest rfl, length_cons,
        range'_succ, map_cons]
      simp only [append_assoc, singleton_append, add_assoc, add_comm 1]
    · rw [if_neg hi] at hget
      cases hget

/-- The backward adds the gradient of every row once. -/
theorem backward_eq (requiresGrad : List Bool) (hshards : 0 < shards)
    (hlogprobs : logprobsGrads.length = rank.hidden.length)
    (hentropies : entropyGrads.length = rank.hidden.length) :
    backward num opt temperature calculateEntropy requiresGrad deferred shards rank.hidden rank.labels
        logprobsGrads entropyGrads = .ok ⟨(tileGrads num rank.hidden rank.labels
          (if calculateEntropy then some entropyGrads else none) logprobsGrads).map ([·]),
        (chunk shards rank.hidden).length, (range (chunk shards rank.hidden).length).map
          (readyFlags (requiresGrad.filter id).length deferred (chunk shards rank.hidden).length)⟩ := by
  have hgrads := length_tileGrads num (if calculateEntropy then some entropyGrads else none) rank.labelled
    hlogprobs (by
      intro grads hgrads
      split at hgrads
      · rwa [← Option.some.inj hgrads]
      · cases hgrads)
  have hall : rank.hidden.length ≤
      (chunk shards rank.hidden).length * stepOf shards rank.hidden.length := by
    have hend := getElem?_chunk hshards rank.nonempty (chunk shards rank.hidden).length
    rw [getElem?_eq_none (le_refl _)] at hend
    by_contra hlt
    rw [if_pos (Nat.lt_of_not_le hlt)] at hend
    cases hend
  have htiles := replayTiles_eq num opt temperature calculateEntropy (requiresGrad.filter id).length deferred
    (i := 0) (s := ⟨replicate rank.hidden.length [], 0, []⟩) hshards hlogprobs hentropies rfl
    (by simp [gradsUpTo, hgrads])
  refine htiles.trans ?_
  simp only [drop_zero, zero_add, nil_append, range_eq_range', gradsUpTo]
  rw [take_of_length_le (by omega), Nat.sub_eq_zero_of_le (by omega), replicate_zero, append_nil]

end Backward

/-! ## All ranks -/

/-- The ranks agree with the plain head: on every rank the forward gives what the head gives for all
rows, the backward adds the gradient of every row once, out of the incoming gradients of the row, all
ranks apply the head equally often in the forward and in the backward, and a parameter is ready in the
last tile alone, or in none. -/
structure Agree (num : Numerics η ℓ ι α τ γ) (opt : Options) (temperature : τ) (calculateEntropy : Bool)
    (requiresGrad : List Bool) (deferred : Bool) (shards : Nat) (ranks : List (Rank η ι)) : Prop where
  forward : ∀ rank ∈ ranks,
    (forward num opt temperature calculateEntropy shards rank.hidden rank.labels).2 =
      .ok (logprobsOf num opt temperature calculateEntropy rank.hidden rank.labels,
        if calculateEntropy then some (entropiesOf num opt temperature rank.hidden rank.labels) else none)
  forwardCalls : ∀ rank ∈ ranks, ∀ rank' ∈ ranks,
    (Tiling.forward num opt temperature calculateEntropy shards rank.hidden rank.labels).1 =
      (Tiling.forward num opt temperature calculateEntropy shards rank'.hidden rank'.labels).1
  backward : ∀ rank ∈ ranks, ∀ logprobsGrads entropyGrads : List α,
    logprobsGrads.length = rank.hidden.length → entropyGrads.length = rank.hidden.length →
      ∃ replay, backward num opt temperature calculateEntropy requiresGrad deferred shards rank.hidden
          rank.labels logprobsGrads entropyGrads = .ok replay ∧
        replay.hsGrad = (tileGrads num rank.hidden rank.labels
          (if calculateEntropy then some entropyGrads else none) logprobsGrads).map ([·]) ∧
        replay.calls =
          (Tiling.forward num opt temperature calculateEntropy shards rank.hidden rank.labels).1 ∧
        replay.ready = (range replay.calls).map
          (readyFlags (requiresGrad.filter id).length deferred replay.calls)

/-- The ranks agree with the plain head exactly when the tiles before the last one leave a row on every
rank. -/
theorem tiledLogProbs_agree_iff (num : Numerics η ℓ ι α τ γ) (opt : Options) (temperature : τ)
    (calculateEntropy : Bool) (requiresGrad : List Bool) (deferred : Bool) (chunkRows : Nat)
    (ranks : List (Rank η ι)) :
    Agree num opt temperature calculateEntropy requiresGrad deferred (numShards chunkRows ranks) ranks ↔
      ∀ rank ∈ ranks, (numShards chunkRows ranks - 1) *
        stepOf (numShards chunkRows ranks) rank.hidden.length < rank.hidden.length := by
  have hshards : 0 < numShards chunkRows ranks := (le_foldl_max _ 1).1
  generalize numShards chunkRows ranks = shards at *
  constructor
  · intro h rank hrank
    rw [← length_chunk_eq_iff hshards rank.nonempty]
    apply le_antisymm (length_chunk_le hshards rank.nonempty)
    have hforward := h.forward rank hrank
    obtain ⟨outs, houts, -⟩ := bind_eq_ok.mp hforward
    have hlast := getElem?_of_applyTiles houts (shards - 1) (mem_range.mpr (by omega))
    omega
  · intro h
    have hlength : ∀ rank ∈ ranks, (chunk shards rank.hidden).length = shards :=
      fun rank hrank => (length_chunk_eq_iff hshards rank.nonempty).mpr (h rank hrank)
    have hforward : ∀ rank ∈ ranks, _ :=
      fun rank hrank => forward_eq num opt temperature calculateEntropy rank hshards (hlength rank hrank)
    refine ⟨?_, ?_, ?_⟩
    · intro rank hrank
      rw [hforward rank hrank]
      exact tiledLogprobsEntropyFromHidden_eq rank.labelled
    · intro rank hrank rank' hrank'
      rw [hforward rank hrank, hforward rank' hrank']
    · intro rank hrank logprobsGrads entropyGrads hlogprobs hentropies
      refine ⟨_, backward_eq requiresGrad hshards hlogprobs hentropies, rfl, ?_, rfl⟩
      rw [hforward rank hrank]
      exact hlength rank hrank

end

/-! ## Examples -/

/-- Integers for all rows and values. -/
def sampleNumerics : Numerics Int Int Int Int Int Int :=
  ⟨id, id, id, 1, (· * ·), fun _ logit label => logit + label, fun logit label => logit * label,
    fun _ _ _ grad => grad⟩

/-- A rank with `n + 1` rows. -/
def sampleRank (n : Nat) : Rank Int Int :=
  ⟨replicate (n + 1) 0, replicate (n + 1) 0, by simp, by simp⟩

/-- Five rows and seven rows in tiles of two: the ranks agree on four tiles, but five rows are cut into
three, and the first rank fails at the fourth. -/
theorem tiledLogProbs_disagree :
    numShards 2 [sampleRank 4, sampleRank 6] = 4 ∧
    forward sampleNumerics ⟨false, false⟩ 1 false 4 (sampleRank 4).hidden (sampleRank 4).labels =
      (3, .error .indexOutOfRange) ∧
    ¬ Agree sampleNumerics ⟨false, false⟩ 1 false [true] false (numShards 2 [sampleRank 4, sampleRank 6])
      [sampleRank 4, sampleRank 6] := by
  refine ⟨by decide, rfl, ?_⟩
  intro h
  have hforward := h.forward (sampleRank 4) mem_cons_self
  cases hforward

end ArcticPlatform.Tiling
