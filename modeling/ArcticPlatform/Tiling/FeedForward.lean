import ArcticPlatform.Library.Chunks

/-!
# The tiled feed-forward

A feed-forward block is applied to tiles of the tokens, in the forward without gradients
and once more in the backward with gradients.  The ranks of a group agree on the largest
number of tiles that any of them needs and pad their tokens to a multiple of it, and a
recomputed tile runs under the generator states that its forward ran under.

Main results:

- Theorem `length_chunk_paddedRows`: the padded tokens are cut into the agreed number of tiles.
- Theorem `forwardShards_eq`, `backwardShards_eq`: what the tiles are run on.
- Theorem `tiledForward_sound`: the tiled block is the plain one on every rank.
-/

namespace ArcticPlatform.Tiling.TiledMlp

open Chunks Results List

/-! ## The block -/

/-- What a call raises. -/
inductive Error where
  | zeroDivision
  | shapeMismatch
  deriving DecidableEq

/-- Rows of features under leading axes. -/
structure Hidden (η : Type) where
  lead : List Nat
  rows : List η
  length_rows : rows.length = lead.prod

/-- The states of the generators: that of the CPU and that of the device of the hidden states, when
this is an accelerator. -/
structure RngState (γ κ : Type) where
  cpu : γ
  cuda : Option κ

/-- `mlp_forward`: the rows that it returns and the generators after its draws. -/
structure Mlp (η θ γ κ : Type) where
  run : List Nat → List η → RngState γ κ → List θ × RngState γ κ
  length_run : ∀ lead rows g, (run lead rows g).1.length = rows.length
  cuda_run : ∀ lead rows g, (run lead rows g).2.cuda.isSome = g.cuda.isSome

section

variable {η θ γ κ : Type}

/-- A function of every row. -/
def Hidden.map (f : η → θ) (x : Hidden η) : Hidden θ :=
  ⟨x.lead, x.rows.map f, by rw [length_map, x.length_rows]⟩

/-! ## Generators that are put back -/

/-- `torch.set_rng_state`, for both generators. -/
def RngState.set (state g : RngState γ κ) : RngState γ κ :=
  ⟨state.cpu, match state.cuda with
    | some cuda => some cuda
    | none => g.cuda⟩

/-- `_rng_state_replayed`: the body runs under the given states, and then the generators are put
back. -/
def rngStateReplayed {β : Type} (state : RngState γ κ) (body : RngState γ κ → β × RngState γ κ)
    (g : RngState γ κ) : β × RngState γ κ :=
  let (out, g') := body (state.set g)
  (out, g.set g')

/-! ## The tiles -/

/-- A tile that was run: its rows, the generators that it started under and what it returned. -/
structure ShardRun (η θ γ κ : Type) where
  rows : List η
  start : RngState γ κ
  output : List θ

/-- The record of `_shard_forward_replaying_rng`. -/
structure Record (γ κ : Type) where
  recorded : List (RngState γ κ)
  replays : Nat

/-- Run the block on a tile. -/
def runShard (mlp : Mlp η θ γ κ) (rows : List η) (g : RngState γ κ) : ShardRun η θ γ κ × RngState γ κ :=
  let (output, g') := mlp.run [rows.length] rows g
  (⟨rows, g, output⟩, g')

/-- `shard_forward`: without gradients the generators are recorded, with gradients they are
replayed. -/
def shardForward (mlp : Mlp η θ γ κ) (gradEnabled : Bool) (rows : List η) (r : Record γ κ)
    (g : RngState γ κ) : ShardRun η θ γ κ × Record γ κ × RngState γ κ :=
  if gradEnabled = false then
    let (run, g') := runShard mlp rows g
    (run, { r with recorded := r.recorded ++ [g] }, g')
  else
    let index := r.replays
    let r := { r with replays := r.replays + 1 }
    match r.recorded[index]? with
    | none =>
      let (run, g') := runShard mlp rows g
      (run, r, g')
    | some state =>
      let (run, g') := rngStateReplayed state (runShard mlp rows) g
      (run, r, g')

/-- `shard_forward` on all tiles, in order. -/
def runShards (mlp : Mlp η θ γ κ) (gradEnabled : Bool) :
    List (List η) → Record γ κ → RngState γ κ → List (ShardRun η θ γ κ) × Record γ κ × RngState γ κ
  | [], r, g => ([], r, g)
  | rows :: rest, r, g =>
    let (run, r, g) := shardForward mlp gradEnabled rows r g
    let (runs, r, g) := runShards mlp gradEnabled rest r g
    (run :: runs, r, g)

/-- What a tiled call saves for its backward. -/
structure Saved (η γ κ : Type) where
  x : List η
  shards : Nat
  record : Record γ κ

/-- `TiledMLP.backward`: the tiles once more, with gradients. -/
def backward (mlp : Mlp η θ γ κ) (saved : Saved η γ κ) (g : RngState γ κ) :
    List (ShardRun η θ γ κ) × RngState γ κ :=
  let (runs, _, g) := runShards mlp true (chunk saved.shards saved.x) saved.record g
  (runs, g)

/-- A call: what it returns, the tiles that it ran, what it saved when it was tiled and the generators
after it. -/
structure Pass (η θ γ κ : Type) where
  output : Hidden θ
  runs : List (ShardRun η θ γ κ)
  saved : Option (Saved η γ κ)
  rng : RngState γ κ

/-! ## The tiled forward -/

/-- `local_shards`. -/
def localShards (tokenChunkSize numTokens : Nat) : Nat :=
  min ((numTokens + tokenChunkSize - 1) / tokenChunkSize) numTokens

/-- `num_shards`: the largest number of all ranks when the parameters are sharded. -/
def numShards (tokenChunkSize : Nat) (usesZero3 : Bool) (peers : List Nat) (numTokens : Nat) : Nat :=
  if usesZero3 then (peers.map (localShards tokenChunkSize)).foldl max 0
  else localShards tokenChunkSize numTokens

/-- `padded_tokens`. -/
def paddedTokens (shards numTokens : Nat) : Nat :=
  max shards ((numTokens + shards - 1) / shards * shards)

/-- The rows and the padding. -/
def paddedRows (zero : η) (shards : Nat) (rows : List η) : List η :=
  rows ++ List.replicate (paddedTokens shards rows.length - rows.length) zero

/-- `output.view(*lead, -1)`. -/
def viewAs (lead : List Nat) (rows : List θ) : Except Error (Hidden θ) :=
  if h : rows.length = lead.prod then .ok ⟨lead, rows, h⟩ else .error .shapeMismatch

/-- The forward of `make_tiled_forward` on a rank whose peers have the given numbers of tokens. -/
def tiledForward (mlp : Mlp η θ γ κ) (zero : η) (hiddenSize tokenChunkSize : Nat) (usesZero3 : Bool)
    (peers : List Nat) (x : Hidden η) (g : RngState γ κ) : Except Error (Pass η θ γ κ) := do
  if hiddenSize = 0 then .error .zeroDivision
  let numTokens := x.lead.prod * hiddenSize / hiddenSize
  let shards := numShards tokenChunkSize usesZero3 peers numTokens
  if shards ≤ 1 then
    let (output, g') := mlp.run x.lead x.rows g
    return ⟨← viewAs x.lead output, [⟨x.rows, g, output⟩], none, g'⟩
  let rows := paddedRows zero shards x.rows
  let (runs, record, g') := runShards mlp false (chunk shards rows) ⟨[], 0⟩ g
  let output ← viewAs x.lead ((runs.flatMap (·.output)).take numTokens)
  return ⟨output, runs, some ⟨rows, shards, record⟩, g'⟩

/-! ## Padding -/

variable {shards : Nat}

theorem dvd_paddedTokens (hshards : 0 < shards) (numTokens : Nat) :
    shards ∣ paddedTokens shards numTokens ∧ numTokens ≤ paddedTokens shards numTokens := by
  have hround : numTokens ≤ shards * stepOf shards numTokens := size_le_mul_stepOf hshards
  rw [stepOf, mul_comm] at hround
  constructor
  · rw [paddedTokens, Nat.max_def]
    split
    · exact dvd_mul_left _ _
    · exact dvd_refl _
  · exact hround.trans (le_max_right _ _)

theorem length_paddedRows (hshards : 0 < shards) (zero : η) (rows : List η) :
    (paddedRows zero shards rows).length = paddedTokens shards rows.length := by
  have := (dvd_paddedTokens hshards rows.length).2
  rw [paddedRows, length_append, length_replicate]
  omega

/-- The padded tokens are cut into exactly as many tiles as were asked for. -/
theorem length_chunk_paddedRows (hshards : 0 < shards) (zero : η) (rows : List η) :
    (chunk shards (paddedRows zero shards rows)).length = shards := by
  apply length_chunk_of_dvd hshards
  rw [length_paddedRows hshards]
  exact (dvd_paddedTokens hshards rows.length).1

/-! ## Tiles in order -/

/-- The tiles of a forward: each is run under the generators that the one before left, and these are
recorded. -/
theorem forwardShards_eq (mlp : Mlp η θ γ κ) (tiles : List (List η)) (r : Record γ κ) (g : RngState γ κ) :
    ∃ runs g', runShards mlp false tiles r g =
        (runs, { r with recorded := r.recorded ++ runs.map (·.start) }, g') ∧
      runs.map (·.rows) = tiles ∧ g'.cuda.isSome = g.cuda.isSome ∧
      ∀ run ∈ runs, run.output = (mlp.run [run.rows.length] run.rows run.start).1 ∧
        run.start.cuda.isSome = g.cuda.isSome := by
  induction tiles generalizing r g with
  | nil => exact ⟨[], g, by simp [runShards], rfl, rfl, by simp⟩
  | cons rows rest ih =>
    obtain ⟨runs, g', hruns, hrows, hcuda, hall⟩ :=
      ih { r with recorded := r.recorded ++ [g] } (mlp.run [rows.length] rows g).2
    have hdevice := mlp.cuda_run [rows.length] rows g
    refine ⟨⟨rows, g, (mlp.run [rows.length] rows g).1⟩ :: runs, g', ?_, ?_, hcuda.trans hdevice, ?_⟩
    · simp only [runShards, shardForward, if_true, runShard, hruns]
      simp
    · rw [map_cons, hrows]
    · intro run hrun
      rcases mem_cons.mp hrun with rfl | hrun
      · exact ⟨rfl, rfl⟩
      · exact ⟨(hall run hrun).1, (hall run hrun).2.trans hdevice⟩

theorem RngState.set_eq {state g : RngState γ κ} (h : state.cuda.isSome = g.cuda.isSome) :
    state.set g = state := by
  obtain ⟨cpu, cuda⟩ := state
  cases cuda with
  | some cuda => rfl
  | none =>
    have hnone : g.cuda = none := by simpa using h.symm
    rw [RngState.set, hnone]

variable {runs : List (ShardRun η θ γ κ)}

/-- The tiles of a backward: each is run under the generators of its forward, and the generators are
those before it. -/
theorem backwardShards_eq (mlp : Mlp η θ γ κ) (done : List (RngState γ κ)) {g : RngState γ κ}
    (h : ∀ run ∈ runs, run.output = (mlp.run [run.rows.length] run.rows run.start).1 ∧
      run.start.cuda.isSome = g.cuda.isSome) :
    ∃ r, runShards mlp true (runs.map (·.rows)) ⟨done ++ runs.map (·.start), done.length⟩ g =
      (runs, r, g) := by
  induction runs generalizing done with
  | nil => exact ⟨_, rfl⟩
  | cons run rest ih =>
    obtain ⟨houtput, hdevice⟩ := h run mem_cons_self
    obtain ⟨r, hrest⟩ := ih (done ++ [run.start]) fun run' hrun' =>
      h run' (mem_cons_of_mem _ hrun')
    have hget : (done ++ (run :: rest).map (·.start))[done.length]? = some run.start := by simp
    have hstart : run.start.set g = run.start := RngState.set_eq hdevice
    have hback : g.set (mlp.run [run.rows.length] run.rows run.start).2 = g :=
      RngState.set_eq (hdevice.symm.trans (mlp.cuda_run _ _ _).symm)
    rw [append_assoc, singleton_append, length_append, length_singleton] at hrest
    refine ⟨r, ?_⟩
    simp only [map_cons, runShards, shardForward, Bool.true_eq_false, if_false] at hget ⊢
    simp only [hget, rngStateReplayed, runShard, hstart, hback, hrest, ← houtput]

/-! ## All ranks -/

theorem viewAs_eq {x : Hidden η} {rows : List θ} (h : rows.length = x.rows.length) :
    viewAs x.lead rows = .ok ⟨x.lead, rows, h.trans x.length_rows⟩ :=
  dif_pos (h.trans x.length_rows)

theorem length_flatMap_output {mlp : Mlp η θ γ κ}
    (h : ∀ run ∈ runs, run.output = (mlp.run [run.rows.length] run.rows run.start).1) :
    (runs.flatMap (·.output)).length = (runs.map (·.rows)).flatten.length := by
  induction runs with
  | nil => rfl
  | cons run rest ih =>
    rw [flatMap_cons, length_append, ih fun r hr => h r (mem_cons_of_mem _ hr),
      h run mem_cons_self, mlp.length_run, map_cons, flatten_cons, length_append]

theorem flatMap_output {mlp : Mlp η θ γ κ} {f : η → θ}
    (hf : ∀ lead rows g, (mlp.run lead rows g).1 = rows.map f)
    (h : ∀ run ∈ runs, run.output = (mlp.run [run.rows.length] run.rows run.start).1) :
    runs.flatMap (·.output) = (runs.map (·.rows)).flatten.map f := by
  induction runs with
  | nil => rfl
  | cons run rest ih =>
    rw [flatMap_cons, ih fun r hr => h r (mem_cons_of_mem _ hr), h run mem_cons_self, hf,
      map_cons, flatten_cons, map_append]

/-- On every rank the tiled block returns the function of the rows in the shape of the input, the ranks
of a group run equally many tiles, and a recomputed tile starts under the generators that its forward
started under and leaves the generators as they were. -/
theorem tiledForward_sound (mlp : Mlp η θ γ κ) (zero : η) (hiddenSize : Nat) (hsize : 0 < hiddenSize)
    (tokenChunkSize : Nat) (usesZero3 : Bool) (ranks : List (Hidden η × RngState γ κ)) :
    ∀ rank ∈ ranks, ∃ pass,
      tiledForward mlp zero hiddenSize tokenChunkSize usesZero3 (ranks.map fun r => r.1.lead.prod)
          rank.1 rank.2 = .ok pass ∧
        (∀ f, (∀ lead rows g, (mlp.run lead rows g).1 = rows.map f) → pass.output = rank.1.map f) ∧
        (usesZero3 = true → pass.runs.length =
          max 1 ((ranks.map fun r => localShards tokenChunkSize r.1.lead.prod).foldl max 0)) ∧
        ∀ saved ∈ pass.saved, (chunk saved.shards saved.x).length = saved.shards ∧
          pass.runs.length = saved.shards ∧
          ∀ g, g.cuda.isSome = rank.2.cuda.isSome → backward mlp saved g = (pass.runs, g) := by
  intro rank _
  obtain ⟨x, g₀⟩ := rank
  have htokens : x.lead.prod * hiddenSize / hiddenSize = x.rows.length := by
    rw [Nat.mul_div_cancel _ hsize, x.length_rows]
  simp only [tiledForward, if_neg hsize.ne', htokens]
  have hshards : usesZero3 = true →
      numShards tokenChunkSize usesZero3 (ranks.map fun r => r.1.lead.prod) x.rows.length =
        (ranks.map fun r => localShards tokenChunkSize r.1.lead.prod).foldl max 0 := by
    rintro rfl
    rw [numShards, if_pos rfl, map_map]
    rfl
  generalize numShards tokenChunkSize usesZero3 (ranks.map fun r => r.1.lead.prod) x.rows.length = shards at *
  by_cases hone : shards ≤ 1
  · rw [if_pos hone, viewAs_eq (mlp.length_run _ _ _)]
    refine ⟨_, rfl, ?_, ?_, by simp⟩
    · intro f hf
      simp only [Hidden.map, hf]
    · intro hzero
      rw [← hshards hzero, max_eq_left hone]
      rfl
  · rw [if_neg hone]
    have hpos : 0 < shards := by omega
    obtain ⟨runs, g', hruns, hrows, -, hall⟩ :=
      forwardShards_eq mlp (chunk shards (paddedRows zero shards x.rows)) ⟨[], 0⟩ g₀
    have hflat : (runs.map (·.rows)).flatten = paddedRows zero shards x.rows := by
      rw [hrows, flatten_chunk]
    have hlength : runs.length = shards := by
      rw [← length_chunk_paddedRows hpos zero x.rows, ← hrows, length_map]
    have htake : ((runs.flatMap (·.output)).take x.rows.length).length = x.rows.length := by
      rw [length_take, length_flatMap_output fun run hrun => (hall run hrun).1, hflat, paddedRows,
        length_append]
      omega
    simp only [hruns]
    rw [viewAs_eq htake]
    refine ⟨_, rfl, ?_, ?_, ?_⟩
    · intro f hf
      have houtput := flatMap_output hf fun run hrun => (hall run hrun).1
      rw [hflat, paddedRows, map_append] at houtput
      simp only [Hidden.map, houtput]
      congr 1
      exact take_left' (length_map f)
    · intro hzero
      rw [← hshards hzero, max_eq_right hpos]
      exact hlength
    · intro saved hsaved
      obtain rfl := Option.some.inj hsaved
      refine ⟨length_chunk_paddedRows hpos zero x.rows, hlength, ?_⟩
      intro g hdevice
      obtain ⟨r, hback⟩ := backwardShards_eq mlp [] (g := g)
        fun run hrun => ⟨(hall run hrun).1, (hall run hrun).2.trans hdevice.symm⟩
      rw [hrows] at hback
      simp only [nil_append, length_nil] at hback
      simp only [backward, nil_append, hback]

end

/-! ## Examples -/

/-- A block that adds a number that it draws to the features, and draws one for every row. -/
def drawing : Mlp (List Nat) Nat Nat Unit where
  run _ rows g := (rows.map (·.sum + g.cpu), { g with cpu := g.cpu + rows.length })
  length_run _ _ _ := length_map _
  cuda_run _ _ _ := rfl

/-- Five rows with one feature. -/
def fiveRows : Hidden (List Nat) := ⟨[5], [[1], [2], [3], [4], [5]], rfl⟩

/-- No row. -/
def noRow : Hidden (List Nat) := ⟨[0], [], rfl⟩

/-- Five tokens and no token: both ranks run three tiles. -/
theorem tiledForward_sound_two :
    ∃ pass, tiledForward drawing [0] 1 2 true [5, 0] noRow ⟨7, none⟩ = .ok pass ∧
      (∀ f, (∀ lead rows g, (drawing.run lead rows g).1 = rows.map f) → pass.output = noRow.map f) ∧
      pass.runs.length = 3 ∧
      ∀ saved ∈ pass.saved, (chunk saved.shards saved.x).length = saved.shards ∧
        pass.runs.length = saved.shards ∧
        ∀ g, g.cuda.isSome = false → backward drawing saved g = (pass.runs, g) := by
  obtain ⟨pass, hpass, houtput, hruns, hback⟩ := tiledForward_sound drawing [0] 1 (by decide) 2 true
    [(fiveRows, ⟨7, none⟩), (noRow, ⟨7, none⟩)] (noRow, ⟨7, none⟩)
    (mem_cons_of_mem _ mem_cons_self)
  exact ⟨pass, hpass, houtput, hruns rfl, hback⟩

/-- Five rows without features: the number of tokens is a quotient by zero. -/
theorem tiledForward_fails :
    tiledForward drawing [] 0 2 false [5] ⟨[5], [[], [], [], [], []], rfl⟩ ⟨7, none⟩ =
      .error .zeroDivision := rfl

end ArcticPlatform.Tiling.TiledMlp
