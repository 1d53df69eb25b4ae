import Mathlib.Algebra.Order.Ring.Unbundled.Rat

/-!
# Asynchronous speculative steps

An embedding of `sample_tokens` of the patched model runner under asynchronous scheduling, with
`_bookkeeping_sync` and the asynchronous paths of `propose_draft_token_ids`.  The class body
defines `sample_tokens` twice, and the second definition is in force: the first one, which takes up
a stashed tensor after the step, is never called.  The kernel that counts the valid tokens, the drafter,
the parser of the sampled rows and the suffix cache are arbitrary functions of a step.

Main results:

- Theorem `fresh_of_fits`: what a step leaves whose input fits the drafter.
- Theorem `stash_of_not_fits`: what a step leaves whose input does not.
- Theorem `fresh_iff_fits`: the runs that leave nothing stale.
-/

namespace ArcticPlatform.ModelRunner

open List
open Option hiding mem_map

/-! ## Drafters and steps -/

/-- The drafters: the method, and whether there is a suffix cache. -/
inductive Drafter
  | arctic
  | suffix
  | arcticSuffix

namespace Drafter

def isArcticMethod : Drafter → Bool
  | arctic | arcticSuffix => true
  | suffix => false

def hasSuffix : Drafter → Bool
  | arctic => false
  | suffix | arcticSuffix => true

/-- `use_async_spec` under asynchronous scheduling. -/
def useAsyncSpec (d : Drafter) (inputFitsInDrafter : Bool) : Bool :=
  (d.isArcticMethod || d.hasSuffix) && inputFitsInDrafter

theorem useAsyncSpec_eq (d : Drafter) (fits : Bool) : d.useAsyncSpec fits = fits := by
  cases d <;> rfl

end Drafter

structure Config where
  drafter : Drafter
  numSpecTokens : Nat
  nPredict : Nat
  /-- `None` or zero is no limit. -/
  disableByBatchSize : Nat

/-- What `_copy_valid_sampled_token_count` records. -/
structure Recorded where
  nextTokenIds : List Int
  validSampledTokensCount : List Nat

structure SuffixDecodingDraft where
  tokenIds : List Int
  score : ℚ

/-- A call: the batch, the sampled tensor with one row for each request, whether the input fits the
drafter, and what the kernel, the drafter, the parser and the suffix cache answer. -/
structure Step where
  reqIds : List String
  sampledTokenIds : List (List Int)
  cols : Nat
  inputFitsInDrafter : Bool
  discardRequestMask : List Bool
  backupTokens : List Int
  kernel : List (List Int) → List Bool → List Int → Recorded
  propose : List Int → Nat → List (List Int)
  parseOutput : List (List Int) → List Bool → List (List Int)
  speculate : Nat → List Int → SuffixDecodingDraft
  length_sampledTokenIds : sampledTokenIds.length = reqIds.length
  length_row : ∀ row ∈ sampledTokenIds, row.length = cols
  length_parseOutput : ∀ sampled discard, (parseOutput sampled discard).length = sampled.length

/-- The fields of the runner that the drafting reads and sets. -/
structure State where
  recorded : Option Recorded
  draftTokenIds : Option (List (List Int))
  prevSampledTokenIds : Option (List (List Int))
  arcticAsyncSampledTensor : Option (List (List Int))
  prevActualDraftLens : List (String × Nat)

def State.init : State := ⟨none, none, none, none, []⟩

/-! ## Drafting -/

/-- A row of ids, cut to a width or filled up with zeros. -/
def padRow (k : Nat) (row : List Int) : List Int := row.take k ++ List.replicate (k - row.length) 0

/-- `prepare_next_token_ids_padded`, and the same kernel in `_suffix_only_rejection_sample`. -/
def prepareNextTokenIdsPadded (x : Step) : Recorded :=
  x.kernel x.sampledTokenIds x.discardRequestMask x.backupTokens

/-- `_copy_valid_sampled_token_count`. -/
def copyValidSampledTokenCount (s : State) (r : Recorded) : State :=
  { s with recorded := some r, prevSampledTokenIds := some (r.nextTokenIds.map fun t => [t]) }

def draftLimit (c : Config) (batchSize : Nat) : Nat :=
  if c.disableByBatchSize ≠ 0 ∧ batchSize > c.disableByBatchSize then c.disableByBatchSize else batchSize

/-- `_draft_merged_gpu[:batch_size]` with the raw draft copied into it; `none` when the draft
is too large for it. -/
def mergedDraft (batchSize k : Nat) (rawDraft : List (List Int)) : Option (List (List Int)) :=
  if rawDraft.length ≤ batchSize ∧ ∀ row ∈ rawDraft, row.length ≤ k then
    some (rawDraft.map (padRow k) ++ List.replicate (batchSize - rawDraft.length) (List.replicate k 0))
  else none

/-- `propose_draft_token_ids` of a sampled tensor with the Arctic drafter. -/
def proposeDraftTokenIds (c : Config) (s : State) (x : Step) : Option (State × List (List Int)) := do
  let r := prepareNextTokenIdsPadded x
  let rawDraft := x.propose (r.nextTokenIds.take (draftLimit c x.reqIds.length)) c.nPredict
  let draft ← mergedDraft x.reqIds.length c.numSpecTokens rawDraft
  some (copyValidSampledTokenCount s r, draft)

/-- The sampled tokens on the CPU: rows of requests that are discarded are empty. -/
def sampledCpu (x : Step) : List (List Int) :=
  if x.cols = 1 then
    x.sampledTokenIds.mapIdx fun i row => if x.discardRequestMask.getD i false then [] else row
  else x.parseOutput x.sampledTokenIds x.discardRequestMask

/-- `propose_suffix_draft_token_ids`: one draft for each row. -/
def proposeSuffixDraftTokenIds (x : Step) (sampled : List (List Int)) : List SuffixDecodingDraft :=
  sampled.mapIdx fun i ids => if ids = [] then ⟨[], 0⟩ else x.speculate i ids

def suffixDraft (x : Step) (minScore : ℚ) : List (List Int) :=
  (proposeSuffixDraftTokenIds x (sampledCpu x)).map fun result =>
    if result.score ≥ minScore then result.tokenIds else []

/-- The lengths of the drafts: a suffix draft goes before an Arctic one. -/
def actualDraftLens (c : Config) (x : Step) (suffix : List (List Int)) : List (String × Nat) :=
  x.reqIds.mapIdx fun i reqId =>
    let n := (suffix.getD i []).length
    let a := if c.drafter.isArcticMethod && i < draftLimit c x.reqIds.length then c.nPredict else 0
    (reqId, if n > 0 then n else a)

/-- The rows that have a suffix draft are overwritten. -/
def overlay (k : Nat) (draft suffix : List (List Int)) : List (List Int) :=
  draft.mapIdx fun i row =>
    let ids := suffix.getD i []
    if ids = [] then row else padRow k ids

/-! ## A step -/

/-- The drafting before the bookkeeping. -/
def draftAsync (c : Config) (s : State) (x : Step) : Option State :=
  match c.drafter with
  | .arctic => do
    let (s, draft) ← proposeDraftTokenIds c s x
    some { s with draftTokenIds := some draft, prevActualDraftLens := actualDraftLens c x [] }
  | .arcticSuffix => do
    let (s, draft) ← proposeDraftTokenIds c s x
    let suffix := suffixDraft x c.nPredict
    some { s with
      draftTokenIds := some (overlay c.numSpecTokens draft suffix)
      prevActualDraftLens := actualDraftLens c x suffix }
  | .suffix =>
    let suffix := suffixDraft x 0
    some { copyValidSampledTokenCount s (prepareNextTokenIdsPadded x) with
      draftTokenIds := some (suffix.map (padRow c.numSpecTokens))
      prevActualDraftLens := actualDraftLens c x suffix }

/-- `_bookkeeping_sync`.  The wrapped one keeps a single sampled column as the previous tokens if
there are none yet. -/
def bookkeepingSync (s : State) (x : Step) : State :=
  if x.cols > 1 ∧ s.prevSampledTokenIds = none then
    { s with
      arcticAsyncSampledTensor := some x.sampledTokenIds
      prevSampledTokenIds := some (x.sampledTokenIds.map (List.take 1)) }
  else { s with prevSampledTokenIds := some (s.prevSampledTokenIds.getD x.sampledTokenIds) }

/-- `sample_tokens`; `none` when it raises. -/
def sampleTokens (c : Config) (s : State) (x : Step) : Option State := do
  let s := { s with draftTokenIds := none, prevSampledTokenIds := none }
  let s ← if c.drafter.useAsyncSpec x.inputFitsInDrafter then draftAsync c s x else some s
  some (bookkeepingSync s x)

/-- The states after the steps of a run. -/
def run (c : Config) : State → List Step → Option (List State)
  | _, [] => some []
  | s, x :: steps => do
    let s' ← sampleTokens c s x
    let states ← run c s' steps
    some (s' :: states)

/-! ## Shapes -/

theorem length_padRow (k : Nat) (row : List Int) : (padRow k row).length = k := by
  rw [padRow, length_append, length_take, length_replicate]
  omega

/-- A draft with one row of the full width for each request. -/
def IsDraft (c : Config) (x : Step) (draft : List (List Int)) : Prop :=
  draft.length = x.reqIds.length ∧ ∀ row ∈ draft, row.length = c.numSpecTokens

variable {c : Config} {s s' : State} {x : Step}

theorem isDraft_mergedDraft {rawDraft draft : List (List Int)}
    (h : mergedDraft x.reqIds.length c.numSpecTokens rawDraft = some draft) : IsDraft c x draft := by
  rw [mergedDraft] at h
  split at h
  · rename_i hfits
    cases h
    constructor
    · rw [length_append, length_map, length_replicate]
      omega
    · intro row hrow
      rcases mem_append.mp hrow with hrow | hrow
      · obtain ⟨raw, -, rfl⟩ := mem_map.mp hrow
        exact length_padRow _ _
      · rw [eq_of_mem_replicate hrow, length_replicate]
  · cases h

theorem isDraft_overlay {draft : List (List Int)} (h : IsDraft c x draft) (suffix : List (List Int)) :
    IsDraft c x (overlay c.numSpecTokens draft suffix) := by
  refine ⟨by rw [overlay, length_mapIdx]; exact h.1, fun row hrow => ?_⟩
  obtain ⟨i, hi, rfl⟩ := mem_mapIdx.mp hrow
  dsimp only
  split
  · exact h.2 _ (getElem_mem hi)
  · exact length_padRow _ _

theorem length_suffixDraft (x : Step) (minScore : ℚ) :
    (suffixDraft x minScore).length = x.reqIds.length := by
  rw [suffixDraft, length_map, proposeSuffixDraftTokenIds, length_mapIdx, sampledCpu,
    ← x.length_sampledTokenIds]
  split
  · exact length_mapIdx
  · exact x.length_parseOutput _ _

theorem isDraft_suffix (minScore : ℚ) :
    IsDraft c x ((suffixDraft x minScore).map (padRow c.numSpecTokens)) := by
  refine ⟨by rw [length_map, length_suffixDraft], fun row hrow => ?_⟩
  obtain ⟨ids, -, rfl⟩ := mem_map.mp hrow
  exact length_padRow _ _

/-! ## What a step leaves -/

/-- Nothing is stale after a step: the counts and next tokens are those of its sampled tensor, the draft
is a tensor with one row for each request, and no tensor is stashed. -/
structure Fresh (c : Config) (x : Step) (s : State) : Prop where
  recorded : s.recorded = some (prepareNextTokenIdsPadded x)
  draft : ∃ draft, s.draftTokenIds = some draft ∧ IsDraft c x draft
  stash : s.arcticAsyncSampledTensor = none

/-- What the drafting before the bookkeeping leaves. -/
theorem draftAsync_spec (h : draftAsync c s x = some s') :
    s'.recorded = some (prepareNextTokenIdsPadded x) ∧
      (∃ draft, s'.draftTokenIds = some draft ∧ IsDraft c x draft) ∧
      s'.arcticAsyncSampledTensor = s.arcticAsyncSampledTensor ∧ s'.prevSampledTokenIds ≠ none := by
  have harctic : ∀ {s₁ draft}, proposeDraftTokenIds c s x = some (s₁, draft) →
      s₁ = copyValidSampledTokenCount s (prepareNextTokenIdsPadded x) ∧ IsDraft c x draft := by
    intro s₁ draft hpropose
    simp only [proposeDraftTokenIds, bind_eq_bind, bind_eq_some_iff] at hpropose
    obtain ⟨merged, hmerged, hsome⟩ := hpropose
    cases hsome
    exact ⟨rfl, isDraft_mergedDraft hmerged⟩
  rw [draftAsync] at h
  split at h
  · simp only [bind_eq_bind, bind_eq_some_iff] at h
    obtain ⟨⟨s₁, draft⟩, hpropose, hsome⟩ := h
    obtain ⟨rfl, hdraft⟩ := harctic hpropose
    cases hsome
    exact ⟨rfl, ⟨_, rfl, hdraft⟩, rfl, some_ne_none _⟩
  · simp only [bind_eq_bind, bind_eq_some_iff] at h
    obtain ⟨⟨s₁, draft⟩, hpropose, hsome⟩ := h
    obtain ⟨rfl, hdraft⟩ := harctic hpropose
    cases hsome
    exact ⟨rfl, ⟨_, rfl, isDraft_overlay hdraft _⟩, rfl, some_ne_none _⟩
  · cases h
    exact ⟨rfl, ⟨_, rfl, isDraft_suffix _⟩, rfl, some_ne_none _⟩

/-- A step whose input fits the drafter leaves nothing stale, and stashes nothing. -/
theorem fresh_of_fits (hfits : x.inputFitsInDrafter = true) (h : sampleTokens c s x = some s') :
    s'.arcticAsyncSampledTensor = s.arcticAsyncSampledTensor ∧
      (s.arcticAsyncSampledTensor = none → Fresh c x s') := by
  simp only [sampleTokens, Drafter.useAsyncSpec_eq, hfits, if_true, bind_eq_bind,
    bind_eq_some_iff] at h
  obtain ⟨s₁, hdraft, hsome⟩ := h
  obtain ⟨hrecorded, hrows, hstash, hprev⟩ := draftAsync_spec hdraft
  have hbook : bookkeepingSync s₁ x =
      { s₁ with prevSampledTokenIds := some (s₁.prevSampledTokenIds.getD x.sampledTokenIds) } :=
    if_neg fun hand => hprev hand.2
  rw [hbook] at hsome
  cases hsome
  exact ⟨hstash, fun hnone => ⟨hrecorded, hrows, hstash.trans hnone⟩⟩

/-- A step whose input does not fit stashes a tensor of several columns, and nothing takes it up. -/
theorem stash_of_not_fits (hfits : x.inputFitsInDrafter = false) (h : sampleTokens c s x = some s') :
    s'.arcticAsyncSampledTensor =
      if x.cols > 1 then some x.sampledTokenIds else s.arcticAsyncSampledTensor := by
  simp only [sampleTokens, Drafter.useAsyncSpec_eq, hfits, Bool.false_eq_true, if_false,
    bind_eq_bind, bind_some, some.injEq] at h
  rw [← h, bookkeepingSync]
  split_ifs with hand hcols hcols
  · rfl
  · exact absurd hand.1 hcols
  · exact absurd ⟨hcols, rfl⟩ hand
  · rfl

/-! ## Runs -/

variable {steps : List Step} {states : List State}

theorem run_cons (h : run c s (x :: steps) = some states) :
    ∃ s' rest, sampleTokens c s x = some s' ∧ run c s' steps = some rest ∧ states = s' :: rest := by
  simp only [run, bind_eq_bind, bind_eq_some_iff, some.injEq] at h
  obtain ⟨s', hstep, rest, hrest, rfl⟩ := h
  exact ⟨s', rest, hstep, hrest, rfl⟩

/-- Every step of a run starts from some state. -/
theorem exists_step (h : run c s steps = some states) {i : Nat} (hx : steps[i]? = some x) :
    ∃ s₁ s₂, states[i]? = some s₂ ∧ sampleTokens c s₁ x = some s₂ := by
  induction steps generalizing s states i with
  | nil => cases hx
  | cons y steps ih =>
    obtain ⟨s', rest, hstep, hrest, rfl⟩ := run_cons h
    cases i with
    | zero =>
      cases hx
      exact ⟨s, s', rfl, hstep⟩
    | succ i => exact ih hrest hx

/-- As long as every step with several columns fits the drafter, nothing is stale after any of them. -/
theorem fresh_of_run (h : run c s steps = some states) (hstash : s.arcticAsyncSampledTensor = none)
    (hfits : ∀ y ∈ steps, 1 < y.cols → y.inputFitsInDrafter = true) {i : Nat} {s' : State}
    (hx : steps[i]? = some x) (hs : states[i]? = some s') (hcols : 1 < x.cols) : Fresh c x s' := by
  induction steps generalizing s states i with
  | nil => cases hx
  | cons y steps ih =>
    obtain ⟨s₁, rest, hstep, hrest, rfl⟩ := run_cons h
    cases i with
    | zero =>
      cases hx
      cases hs
      exact (fresh_of_fits (hfits _ mem_cons_self hcols) hstep).2 hstash
    | succ i =>
      refine ih hrest ?_ (fun z hz => hfits z (mem_cons_of_mem _ hz)) hx hs
      cases hfit : y.inputFitsInDrafter with
      | true => rw [(fresh_of_fits hfit hstep).1, hstash]
      | false =>
        rw [stash_of_not_fits hfit hstep, if_neg fun hgt => ?_, hstash]
        rw [hfits y mem_cons_self hgt] at hfit
        cases hfit

/-- In a run nothing is stale after the steps that sample several columns exactly if the inputs of all of
them fit the drafter. -/
theorem fresh_iff_fits {steps : List Step} {states : List State}
    (h : run c State.init steps = some states) :
    (∀ (i : Nat) x s, steps[i]? = some x → states[i]? = some s → 1 < x.cols → Fresh c x s) ↔
      ∀ x ∈ steps, 1 < x.cols → x.inputFitsInDrafter = true := by
  constructor
  · intro hfresh x hx hcols
    obtain ⟨i, hi⟩ := mem_iff_getElem?.mp hx
    obtain ⟨s₁, s₂, hs, hstep⟩ := exists_step h hi
    by_contra hfits
    have hstash := stash_of_not_fits (Bool.eq_false_iff.mpr hfits) hstep
    rw [if_pos hcols, (hfresh i x s₂ hi hs hcols).stash] at hstash
    cases hstash
  · intro hfits i x s hx hs hcols
    exact fresh_of_run h rfl hfits hx hs hcols

/-! ## Two steps -/

/-- A step of one request with two sampled columns; the drafter proposes `9`. -/
def twoColumns (fits : Bool) (sampled : List Int) (hlength : sampled.length = 2) : Step where
  reqIds := ["r"]
  sampledTokenIds := [sampled]
  cols := 2
  inputFitsInDrafter := fits
  discardRequestMask := [false]
  backupTokens := [0]
  kernel := fun rows _ _ => ⟨rows.map fun row => row.getLastD 0, rows.map List.length⟩
  propose := fun tokens _ => tokens.map fun _ => [9]
  parseOutput := fun rows _ => rows
  speculate := fun _ _ => ⟨[], 0⟩
  length_sampledTokenIds := rfl
  length_row := by
    intro row hrow
    rw [mem_singleton.mp hrow, hlength]
  length_parseOutput := fun _ _ => rfl

theorem twoColumns_run : run ⟨.arctic, 1, 1, 0⟩ State.init [twoColumns true [4, 5] rfl] =
    some [⟨some ⟨[5], [2]⟩, some [[9]], some [[5]], none, [("r", 1)]⟩] := rfl

theorem fresh_twoColumns : Fresh ⟨.arctic, 1, 1, 0⟩ (twoColumns true [4, 5] rfl)
    ⟨some ⟨[5], [2]⟩, some [[9]], some [[5]], none, [("r", 1)]⟩ := by
  refine (fresh_iff_fits twoColumns_run).mpr (fun x hx _ => ?_) 0 _ _ rfl rfl (by decide)
  rw [mem_singleton.mp hx]
  rfl

/-- After a step that does not fit the counts are those of the step before, there is no draft, and the
tensor is stashed. -/
theorem not_fits_leaves_stale :
    run ⟨.arctic, 1, 1, 0⟩ State.init [twoColumns true [4, 5] rfl, twoColumns false [6, 7] rfl] =
        some [⟨some ⟨[5], [2]⟩, some [[9]], some [[5]], none, [("r", 1)]⟩,
          ⟨some ⟨[5], [2]⟩, none, some [[6]], some [[6, 7]], [("r", 1)]⟩] ∧
      ¬ Fresh ⟨.arctic, 1, 1, 0⟩ (twoColumns false [6, 7] rfl)
        ⟨some ⟨[5], [2]⟩, none, some [[6]], some [[6, 7]], [("r", 1)]⟩ :=
  ⟨rfl, fun hfresh => by cases hfresh.stash⟩

end ArcticPlatform.ModelRunner
