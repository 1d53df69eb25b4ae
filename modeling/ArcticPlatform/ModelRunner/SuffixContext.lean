import Mathlib.Data.List.Basic

/-!
# The context of suffix drafts

An embedding of `_update_suffix_cache` and `propose_suffix_draft_token_ids` of the model runner,
with the steps that call them: after the bookkeeping in synchronous scheduling, before it in asynchronous
scheduling.  The tokens that the engine accepts for a request are kept beside the runner's own records.

Main results:

- Theorem `updateSuffixCache_of_mem`: what an update does to one request.
- Theorem `invariant_step`: the stored responses have no gap.
- Theorem `drafts_from_true_context`: what the runner drafts from.
-/

namespace ArcticPlatform.ModelRunner.Suffix

open List Function

variable {ι : Type} [DecidableEq ι]

/-! ## Steps -/

structure Config where
  useAsyncScheduling : Bool
  vocabSize : Nat
  maxModelLen : Nat
  suffixCacheMaxDepth : Nat
  maxSpecLen : Nat

/-- A row of the batch: what was sampled for a request, and whether the engine discards it because the
request is still in prefill. -/
structure Row (ι : Type) where
  reqId : ι
  sampledTokenIds : List Int
  discard : Bool

/-- A call of `sample_tokens`: the batch, and whether the input fits the drafter. -/
structure Step (ι : Type) where
  rows : List (Row ι)
  inputFitsInDrafter : Bool
  nodup : (rows.map Row.reqId).Nodup

/-- A request in the suffix cache.  `startedAt` is the number of tokens that had been accepted for it
when it was started. -/
structure Entry where
  prompt : List Int
  response : List Int
  startedAt : Nat

/-- The suffix cache and the response tokens of the runner, and the tokens that the engine accepted. -/
structure State (ι : Type) where
  active : ι → Option Entry
  cached : ι → Option Entry
  responseTokens : ι → Option (List Int)
  accepted : ι → List Int

def State.init : State ι := ⟨fun _ => none, fun _ => none, fun _ => none, fun _ => []⟩

/-- The tokens of a row that are neither rejected nor out of the vocabulary. -/
def Row.valid (c : Config) (row : Row ι) : List Int :=
  row.sampledTokenIds.filter fun t => t ≠ -1 ∧ t < c.vocabSize

/-- The tokens that the runner accepts: those of `RejectionSampler.parse_output`, without the rows
that are discarded.  Tokens behind a stop, and the row of a request that has finished meanwhile,
count. -/
def Row.acceptedTokens (c : Config) (row : Row ι) : List Int := if row.discard then [] else row.valid c

/-- The lists that the drafting gets.  The asynchronous paths leave out the discarded rows; the
synchronous one filters by the values only. -/
def Row.sampledList (c : Config) (row : Row ι) : List Int :=
  if c.useAsyncScheduling then row.acceptedTokens c else row.valid c

/-- The bookkeeping of the engine. -/
def accept (c : Config) (accepted : ι → List Int) (rows : List (Row ι)) : ι → List Int :=
  rows.foldl (fun accepted row =>
    Function.update accepted row.reqId (accepted row.reqId ++ row.acceptedTokens c)) accepted

/-! ## The suffix cache -/

/-- One row of `_update_suffix_cache`. -/
def updateRow (prompt : ι → List Int) (c : Config) (s : State ι) (row : Row ι) : State ι :=
  let ids := row.sampledList c
  if ids = [] then s
  else
    let s :=
      if (s.active row.reqId).isSome then s
      else { s with
        cached := Function.update s.cached row.reqId none
        active := Function.update s.active row.reqId
          (some ⟨prompt row.reqId, [], (s.accepted row.reqId).length⟩)
        responseTokens := Function.update s.responseTokens row.reqId (some []) }
    { s with
      active := Function.update s.active row.reqId
        ((s.active row.reqId).map fun e => { e with response := e.response ++ ids })
      responseTokens := Function.update s.responseTokens row.reqId
        ((s.responseTokens row.reqId).map (· ++ ids)) }

/-- `stop_request` of the active requests that are not in the batch. -/
def stopUnseen (s : State ι) (seenReqIds : List ι) : State ι :=
  { s with
    active := fun r => if r ∈ seenReqIds then s.active r else none
    cached := fun r => if r ∈ seenReqIds ∨ s.active r = none then s.cached r else s.active r
    responseTokens := fun r =>
      if r ∈ seenReqIds ∨ s.active r = none then s.responseTokens r else none }

/-- `_update_suffix_cache`. -/
def updateSuffixCache (prompt : ι → List Int) (c : Config) (s : State ι) (rows : List (Row ι)) : State ι :=
  stopUnseen (rows.foldl (updateRow prompt c) s) (rows.map Row.reqId)

/-- What is passed to `speculate`. -/
structure Call (ι : Type) where
  reqId : ι
  pattern : List Int
  maxSpecTokens : Nat
  deriving DecidableEq

/-- The token table of the batch up to `num_tokens_no_spec`: after the bookkeeping in synchronous
scheduling; in asynchronous scheduling it has placeholders for what was decoded. -/
def tokenTable (prompt : ι → List Int) (c : Config) (accepted : List Int) (r : ι) : List Int :=
  prompt r ++ if c.useAsyncScheduling then List.replicate accepted.length (-1) else accepted

/-- `propose_suffix_draft_token_ids` for one row: the call of `speculate`, if there is one.
`accepted` are the tokens that the table of the batch has. -/
def speculateRow (prompt : ι → List Int) (c : Config) (s : State ι) (accepted : ι → List Int)
    (row : Row ι) : Option (Call ι) :=
  if row.sampledList c = [] then none
  else
    let numPrompt := (prompt row.reqId).length
    let depth := c.suffixCacheMaxDepth
    match if c.useAsyncScheduling then s.responseTokens row.reqId else none with
    | some response =>
      let numTokens := numPrompt + response.length
      if numTokens ≥ c.maxModelLen then none
      else
        -- a slice from minus zero is the whole list
        let pattern :=
          if response.length ≥ depth then response.drop (if depth = 0 then 0 else response.length - depth)
          else ((prompt row.reqId).drop (numPrompt - (depth - response.length))) ++ response
        some ⟨row.reqId, pattern, min c.maxSpecLen (c.maxModelLen - numTokens - 1)⟩
    | none =>
      let table := tokenTable prompt c (accepted row.reqId) row.reqId
      if table.length ≥ c.maxModelLen then none
      else some ⟨row.reqId, table.drop (table.length - depth),
        min c.maxSpecLen (c.maxModelLen - table.length - 1)⟩

/-- A step: the state after it and the calls of `speculate`. -/
def sampleTokens (prompt : ι → List Int) (c : Config) (s : State ι) (x : Step ι) :
    State ι × List (Call ι) :=
  let accepted := accept c s.accepted x.rows
  if x.inputFitsInDrafter then
    let updated := updateSuffixCache prompt c s x.rows
    let table := if c.useAsyncScheduling then s.accepted else accepted
    ({ updated with accepted }, x.rows.filterMap (speculateRow prompt c updated table))
  else ({ s with accepted }, [])

/-! ## One request -/

variable {prompt : ι → List Int} {c : Config} {s : State ι} {rows : List (Row ι)} {row : Row ι} {r : ι}

theorem accept_of_notMem {accepted : ι → List Int} (hr : r ∉ rows.map Row.reqId) :
    accept c accepted rows r = accepted r := by
  induction rows generalizing accepted with
  | nil => rfl
  | cons row rows ih =>
    rw [map_cons, mem_cons, not_or] at hr
    rw [accept, foldl_cons]
    exact (ih hr.2).trans (update_of_ne hr.1 _ _)

/-- A request gets the accepted tokens of its row. -/
theorem accept_of_mem {accepted : ι → List Int} (hnodup : (rows.map Row.reqId).Nodup)
    (hrow : row ∈ rows) :
    accept c accepted rows row.reqId = accepted row.reqId ++ row.acceptedTokens c := by
  induction rows generalizing accepted with
  | nil => exact absurd hrow not_mem_nil
  | cons row' rows ih =>
    rw [map_cons, nodup_cons] at hnodup
    rw [accept, foldl_cons]
    rcases mem_cons.mp hrow with rfl | hrow
    · exact (accept_of_notMem hnodup.1).trans (update_self ..)
    · have hne : row.reqId ≠ row'.reqId := fun heq => hnodup.1 (heq ▸ mem_map_of_mem hrow)
      exact (ih hnodup.2 hrow).trans (by rw [update_of_ne hne])

theorem updateRow_self :
    (updateRow prompt c s row).active row.reqId = (if row.sampledList c = [] then s.active row.reqId
        else some (((s.active row.reqId).map fun e =>
          { e with response := e.response ++ row.sampledList c }).getD
            ⟨prompt row.reqId, row.sampledList c, (s.accepted row.reqId).length⟩)) ∧
      (updateRow prompt c s row).cached row.reqId =
        (if row.sampledList c = [] ∨ (s.active row.reqId).isSome then s.cached row.reqId else none) ∧
      (updateRow prompt c s row).responseTokens row.reqId =
        if row.sampledList c = [] then s.responseTokens row.reqId
        else if (s.active row.reqId).isSome then (s.responseTokens row.reqId).map (· ++ row.sampledList c)
        else some (row.sampledList c) := by
  by_cases hids : row.sampledList c = []
  · simp [updateRow, hids]
  · cases hactive : s.active row.reqId <;> simp [updateRow, hids, hactive]

theorem updateRow_of_ne (hr : r ≠ row.reqId) :
    (updateRow prompt c s row).active r = s.active r ∧
      (updateRow prompt c s row).cached r = s.cached r ∧
        (updateRow prompt c s row).responseTokens r = s.responseTokens r := by
  by_cases hids : row.sampledList c = []
  · simp [updateRow, hids]
  · cases hactive : (s.active row.reqId).isSome <;>
      simp [updateRow, hids, hactive, update_of_ne hr]

theorem accepted_updateRow : (updateRow prompt c s row).accepted = s.accepted := by
  by_cases hids : row.sampledList c = []
  · simp [updateRow, hids]
  · cases hactive : (s.active row.reqId).isSome <;> simp [updateRow, hids, hactive]

theorem foldl_updateRow_of_notMem (hr : r ∉ rows.map Row.reqId) :
    (rows.foldl (updateRow prompt c) s).active r = s.active r ∧
      (rows.foldl (updateRow prompt c) s).cached r = s.cached r ∧
        (rows.foldl (updateRow prompt c) s).responseTokens r = s.responseTokens r := by
  induction rows generalizing s with
  | nil => exact ⟨rfl, rfl, rfl⟩
  | cons row rows ih =>
    rw [map_cons, mem_cons, not_or] at hr
    obtain ⟨hactive, hcached, hresponse⟩ := ih (s := updateRow prompt c s row) hr.2
    obtain ⟨hactive', hcached', hresponse'⟩ := @updateRow_of_ne ι _ prompt c s row r hr.1
    exact ⟨hactive.trans hactive', hcached.trans hcached', hresponse.trans hresponse'⟩

theorem foldl_updateRow_of_mem (hnodup : (rows.map Row.reqId).Nodup) (hrow : row ∈ rows) :
    (rows.foldl (updateRow prompt c) s).active row.reqId =
        (updateRow prompt c s row).active row.reqId ∧
      (rows.foldl (updateRow prompt c) s).cached row.reqId =
          (updateRow prompt c s row).cached row.reqId ∧
        (rows.foldl (updateRow prompt c) s).responseTokens row.reqId =
          (updateRow prompt c s row).responseTokens row.reqId := by
  induction rows generalizing s with
  | nil => exact absurd hrow not_mem_nil
  | cons row' rows ih =>
    rw [map_cons, nodup_cons] at hnodup
    rw [foldl_cons]
    rcases mem_cons.mp hrow with rfl | hrow
    · exact foldl_updateRow_of_notMem hnodup.1
    · have hne : row.reqId ≠ row'.reqId := fun heq => hnodup.1 (heq ▸ mem_map_of_mem hrow)
      have hrest := ih (s := updateRow prompt c s row') hnodup.2 hrow
      obtain ⟨hactive, hcached, hresponse⟩ := @updateRow_of_ne ι _ prompt c s row' row.reqId hne
      rw [updateRow_self.1, updateRow_self.2.1, updateRow_self.2.2, hactive, hcached, hresponse,
        accepted_updateRow] at hrest
      rw [updateRow_self.1, updateRow_self.2.1, updateRow_self.2.2]
      exact hrest

/-! ## The invariant -/

/-- The stored responses are what the engine accepted since the request was started, without a gap; in
asynchronous scheduling every active request was started with its first token. -/
structure Invariant (prompt : ι → List Int) (c : Config) (s : State ι) : Prop where
  active : ∀ r e, s.active r = some e → e.prompt = prompt r ∧
    e.startedAt ≤ (s.accepted r).length ∧ e.response = (s.accepted r).drop e.startedAt
  cached : ∀ r e, s.cached r = some e → e.prompt = prompt r ∧
    e.response <+: (s.accepted r).drop e.startedAt
  responseTokens : ∀ r, s.responseTokens r = (s.active r).map Entry.response
  fromStart : c.useAsyncScheduling = true → ∀ r e, s.active r = some e → e.startedAt = 0

/-- The condition on a step: the input fits the drafter, unless nothing is accepted; in synchronous
scheduling a row that is discarded has no token of the vocabulary; and in asynchronous scheduling the
depth is positive and a request that is not active has no accepted tokens when it gets some. -/
structure Ok (c : Config) (s : State ι) (x : Step ι) : Prop where
  fits : x.inputFitsInDrafter = true ∨ ∀ row ∈ x.rows, row.acceptedTokens c = []
  sync : c.useAsyncScheduling = false → ∀ row ∈ x.rows, row.discard = true → row.valid c = []
  async : c.useAsyncScheduling = true → 0 < c.suffixCacheMaxDepth ∧
    ∀ row ∈ x.rows, row.acceptedTokens c ≠ [] → s.active row.reqId = none → s.accepted row.reqId = []

omit [DecidableEq ι] in
theorem Ok.sampledList_eq {x : Step ι} (hok : Ok c s x) (hrow : row ∈ x.rows) :
    row.sampledList c = row.acceptedTokens c := by
  rw [Row.sampledList]
  split
  · rfl
  · rename_i hsync
    rw [Row.acceptedTokens]
    split
    · rename_i hdiscard
      exact hok.sync (Bool.eq_false_iff.mpr hsync) row hrow hdiscard
    · rfl

/-! ## Steps keep the invariant -/

variable {x : Step ι}

/-- The update of a batch, for a request that is in it. -/
theorem updateSuffixCache_of_mem (hok : Ok c s x) (hrow : row ∈ x.rows) :
    (updateSuffixCache prompt c s x.rows).active row.reqId =
        (if row.acceptedTokens c = [] then s.active row.reqId
        else some (((s.active row.reqId).map fun e =>
          { e with response := e.response ++ row.acceptedTokens c }).getD
            ⟨prompt row.reqId, row.acceptedTokens c, (s.accepted row.reqId).length⟩)) ∧
      (updateSuffixCache prompt c s x.rows).cached row.reqId =
        (if row.acceptedTokens c = [] ∨ (s.active row.reqId).isSome then s.cached row.reqId else none) ∧
      (updateSuffixCache prompt c s x.rows).responseTokens row.reqId =
        if row.acceptedTokens c = [] then s.responseTokens row.reqId
        else if (s.active row.reqId).isSome then
          (s.responseTokens row.reqId).map (· ++ row.acceptedTokens c)
        else some (row.acceptedTokens c) := by
  have hmem : row.reqId ∈ x.rows.map Row.reqId := mem_map_of_mem hrow
  obtain ⟨hactive, hcached, hresponse⟩ :=
    @foldl_updateRow_of_mem ι _ prompt c s x.rows row x.nodup hrow
  have hself := @updateRow_self ι _ prompt c s row
  rw [hok.sampledList_eq hrow] at hself
  simp only [updateSuffixCache, stopUnseen, hmem, if_true, true_or]
  exact ⟨hactive.trans hself.1, hcached.trans hself.2.1, hresponse.trans hself.2.2⟩

theorem updateSuffixCache_of_notMem (hr : r ∉ x.rows.map Row.reqId) :
    (updateSuffixCache prompt c s x.rows).active r = none ∧
      (updateSuffixCache prompt c s x.rows).cached r =
        (if s.active r = none then s.cached r else s.active r) ∧
      (updateSuffixCache prompt c s x.rows).responseTokens r =
        if s.active r = none then s.responseTokens r else none := by
  obtain ⟨hactive, hcached, hresponse⟩ := @foldl_updateRow_of_notMem ι _ prompt c s x.rows r hr
  simp only [updateSuffixCache, stopUnseen, hr, if_false, false_or, hactive, hcached, hresponse]
  exact ⟨trivial, trivial, trivial⟩

/-- An update keeps the invariant, with the tokens that the engine accepts in the step. -/
theorem Invariant.update (h : Invariant prompt c s) (hok : Ok c s x) :
    Invariant prompt c
      { updateSuffixCache prompt c s x.rows with accepted := accept c s.accepted x.rows } := by
  have hlocal : ∀ r, (∃ row ∈ x.rows, row.reqId = r) ∨ r ∉ x.rows.map Row.reqId := by
    intro r
    by_cases hr : r ∈ x.rows.map Row.reqId
    · exact .inl (mem_map.mp hr)
    · exact .inr hr
  constructor
  · intro r e he
    rcases hlocal r with ⟨row, hrow, rfl⟩ | hr
    · dsimp only at he ⊢
      rw [(updateSuffixCache_of_mem hok hrow).1] at he
      rw [accept_of_mem x.nodup hrow]
      split at he
      · rename_i hnil
        rw [hnil, append_nil]
        exact h.active _ e he
      · cases hactive : s.active row.reqId with
        | none =>
          rw [hactive, Option.map_none, Option.getD_none] at he
          cases he
          exact ⟨rfl, by rw [length_append]; exact Nat.le_add_right _ _, drop_left.symm⟩
        | some e₀ =>
          obtain ⟨hprompt, hle, hresponse⟩ := h.active _ e₀ hactive
          rw [hactive, Option.map_some, Option.getD_some] at he
          cases he
          refine ⟨hprompt, by rw [length_append]; exact Nat.le_add_right_of_le hle, ?_⟩
          rw [drop_append_of_le_length hle, ← hresponse]
    · rw [(updateSuffixCache_of_notMem hr).1] at he
      cases he
  · intro r e he
    rcases hlocal r with ⟨row, hrow, rfl⟩ | hr
    · dsimp only at he ⊢
      rw [(updateSuffixCache_of_mem hok hrow).2.1] at he
      rw [accept_of_mem x.nodup hrow]
      split at he
      · obtain ⟨hprompt, hpre⟩ := h.cached _ e he
        refine ⟨hprompt, hpre.trans ?_⟩
        rw [drop_append]
        exact prefix_append _ _
      · cases he
    · dsimp only at he ⊢
      rw [(updateSuffixCache_of_notMem hr).2.1] at he
      rw [accept_of_notMem hr]
      split at he
      · exact h.cached r e he
      · obtain ⟨hprompt, -, hresponse⟩ := h.active r e he
        exact ⟨hprompt, hresponse ▸ prefix_rfl⟩
  · intro r
    rcases hlocal r with ⟨row, hrow, rfl⟩ | hr
    · dsimp only
      rw [(updateSuffixCache_of_mem hok hrow).2.2, (updateSuffixCache_of_mem hok hrow).1, h.responseTokens]
      split
      · rfl
      · cases s.active row.reqId <;> rfl
    · dsimp only
      rw [(updateSuffixCache_of_notMem hr).2.2, (updateSuffixCache_of_notMem hr).1, h.responseTokens]
      split
      · rename_i hnone
        rw [hnone]
      · rfl
  · intro hasync r e he
    rcases hlocal r with ⟨row, hrow, rfl⟩ | hr
    · dsimp only at he
      rw [(updateSuffixCache_of_mem hok hrow).1] at he
      split at he
      · exact h.fromStart hasync _ e he
      · rename_i hne
        cases hactive : s.active row.reqId with
        | none =>
          rw [hactive] at he
          cases he
          exact length_eq_zero_iff.mpr ((hok.async hasync).2 row hrow hne hactive)
        | some e₀ =>
          rw [hactive] at he
          cases he
          exact h.fromStart hasync _ e₀ hactive
    · rw [(updateSuffixCache_of_notMem hr).1] at he
      cases he

theorem invariant_step (h : Invariant prompt c s) (hok : Ok c s x) :
    Invariant prompt c (sampleTokens prompt c s x).1 := by
  by_cases hfits : x.inputFitsInDrafter = true
  · rw [sampleTokens, if_pos hfits]
    exact h.update hok
  · -- nothing is accepted, and nothing is stored
    have hnil := hok.fits.resolve_left hfits
    have haccept : accept c s.accepted x.rows = s.accepted := by
      funext r
      by_cases hr : r ∈ x.rows.map Row.reqId
      · obtain ⟨row, hrow, rfl⟩ := mem_map.mp hr
        rw [accept_of_mem x.nodup hrow, hnil row hrow, append_nil]
      · exact accept_of_notMem hr
    rw [sampleTokens, if_neg hfits, haccept]
    exact h

omit [DecidableEq ι] in
theorem invariant_init : Invariant prompt c (State.init : State ι) where
  active := fun _ _ he => nomatch he
  cached := fun _ _ he => nomatch he
  responseTokens := fun _ => rfl
  fromStart := fun _ _ _ he => nomatch he

/-- The states of a run whose steps all meet the condition. -/
inductive Reached (prompt : ι → List Int) (c : Config) : State ι → Prop
  | init : Reached prompt c State.init
  | step {s : State ι} (hs : Reached prompt c s) (x : Step ι) (hok : Ok c s x) :
    Reached prompt c (sampleTokens prompt c s x).1

theorem Reached.invariant (h : Reached prompt c s) : Invariant prompt c s := by
  induction h with
  | init => exact invariant_init
  | step _ _ hok ih => exact invariant_step ih hok

/-! ## Contexts -/

/-- The end of a list. -/
def lastTokens (n : Nat) (l : List Int) : List Int := l.drop (l.length - n)

/-- A call drafts from the true context: the end of the prompt and all accepted tokens, and no more than
the model length leaves. -/
def TrueContext (prompt : ι → List Int) (c : Config) (accepted : ι → List Int) (call : Call ι) : Prop :=
  call.pattern = lastTokens c.suffixCacheMaxDepth (prompt call.reqId ++ accepted call.reqId) ∧
    call.maxSpecTokens + (prompt call.reqId ++ accepted call.reqId).length + 1 ≤ c.maxModelLen

theorem pattern_eq {depth : Nat} (hdepth : 0 < depth) (p response : List Int) :
    (if response.length ≥ depth then response.drop (if depth = 0 then 0 else response.length - depth)
      else p.drop (p.length - (depth - response.length)) ++ response) =
      lastTokens depth (p ++ response) := by
  rw [lastTokens, length_append]
  split
  · rename_i hge
    rw [if_neg (by omega), show p.length + response.length - depth = p.length + (response.length - depth) by
      omega, ← drop_drop, drop_left]
  · rw [drop_append_of_le_length (by omega)]
    congr 2
    omega

theorem trueContext_of_call (h : Invariant prompt c s) (hok : Ok c s x) {call : Call ι}
    (hcall : call ∈ (sampleTokens prompt c s x).2) :
    TrueContext prompt c (sampleTokens prompt c s x).1.accepted call := by
  by_cases hfits : x.inputFitsInDrafter = true
  · rw [sampleTokens, if_pos hfits] at hcall ⊢
    obtain ⟨row, hrow, hcall⟩ := mem_filterMap.mp hcall
    have hupdate := h.update hok
    dsimp only
    rw [speculateRow] at hcall
    split at hcall
    · cases hcall
    · rename_i hne
      rw [hok.sampledList_eq hrow] at hne
      by_cases hasync : c.useAsyncScheduling = true
      · -- the request is active, and was started with its first token
        obtain ⟨e, he⟩ : ∃ e, (updateSuffixCache prompt c s x.rows).active row.reqId = some e :=
          ⟨_, (updateSuffixCache_of_mem hok hrow).1.trans (if_neg hne)⟩
        have hresponse := (hupdate.active _ e he).2.2
        rw [hupdate.fromStart hasync _ e he, drop_zero] at hresponse
        have hstored := hupdate.responseTokens row.reqId
        dsimp only at hstored hresponse
        rw [he, Option.map_some, hresponse] at hstored
        simp only [hasync, if_true, hstored] at hcall
        split at hcall
        · cases hcall
        · rename_i hlt
          cases hcall
          refine ⟨pattern_eq (hok.async hasync).1 _ _, ?_⟩
          simp only [length_append]
          omega
      · simp only [hasync, Bool.false_eq_true, if_false, tokenTable] at hcall
        split at hcall
        · cases hcall
        · rename_i hlt
          cases hcall
          refine ⟨rfl, ?_⟩
          dsimp only
          omega
  · rw [sampleTokens, if_neg hfits] at hcall
    exact absurd hcall not_mem_nil

/-- In every run whose steps meet the condition, the stored responses are what the engine accepted, and
every call of a step that meets it drafts from the true context, in both scheduling modes. -/
theorem drafts_from_true_context (h : Reached prompt c s) :
    (∀ r e, s.active r = some e → e.prompt = prompt r ∧ e.response = (s.accepted r).drop e.startedAt) ∧
      (∀ r e, s.cached r = some e → e.prompt = prompt r ∧
        e.response <+: (s.accepted r).drop e.startedAt) ∧
      ∀ x, Ok c s x → ∀ call ∈ (sampleTokens prompt c s x).2,
        TrueContext prompt c (sampleTokens prompt c s x).1.accepted call :=
  ⟨fun r e he => ⟨(h.invariant.active r e he).1, (h.invariant.active r e he).2.2⟩, h.invariant.cached,
    fun _ hok _ hcall => trueContext_of_call h.invariant hok hcall⟩

/-! ## Steps that do not meet the condition -/

/-- A step of one request. -/
def oneRow (sampled : List Int) (discard : Bool) : Step Unit := ⟨[⟨(), sampled, discard⟩], true, by simp⟩

/-- A run of steps, for a request with the prompt `[1, 2]`. -/
def runOne (c : Config) (steps : List (Step Unit)) : State Unit × List (Call Unit) :=
  steps.foldl (fun s x => sampleTokens (fun _ => [1, 2]) c s.1 x) (State.init, [])

def async : Config := ⟨true, 100, 50, 4, 8⟩

theorem drafts_after_two_steps :
    (runOne async [oneRow [3] false, oneRow [4, -1] false]).2 = [⟨(), [1, 2, 3, 4], 8⟩] ∧
      ∀ call ∈ (runOne async [oneRow [3] false, oneRow [4, -1] false]).2,
        TrueContext (fun _ => [1, 2]) async
          (runOne async [oneRow [3] false, oneRow [4, -1] false]).1.accepted call :=
  ⟨by decide, (drafts_from_true_context
    (.step .init (oneRow [3] false) ⟨.inl rfl, by decide, by decide⟩)).2.2 (oneRow [4, -1] false)
      ⟨.inl rfl, by decide, by decide⟩⟩

/-- In synchronous scheduling the token of a row in prefill is stored, which the engine discards; in
asynchronous scheduling a request that was left out of a step drafts without its earlier tokens. -/
theorem contexts_lost :
    ((runOne { async with useAsyncScheduling := false } [oneRow [3] true]).1.active ()).map Entry.response =
        some [3] ∧
      (runOne { async with useAsyncScheduling := false } [oneRow [3] true]).1.accepted () = [] ∧
      (runOne async [oneRow [3] false, ⟨[], true, by simp⟩, oneRow [4] false]).2 =
        [⟨(), [1, 2, 4], 8⟩] ∧
      (runOne async [oneRow [3] false, ⟨[], true, by simp⟩, oneRow [4] false]).1.accepted () = [3, 4] := by
  decide

end ArcticPlatform.ModelRunner.Suffix
