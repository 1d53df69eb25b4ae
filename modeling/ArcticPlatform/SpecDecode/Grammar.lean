import ArcticPlatform.Library.Dict
import ArcticPlatform.Library.Results
import ArcticPlatform.Library.Slices

/-!
# Drafts that no grammar row was filled for

An embedding of `spec_decode_grammar.py`.  The scheduler records, for every
structured request, the draft ids its grammar rows were filled for; the rejection sampler
then sees -1 from the first placeholder of that list on.  Lists are objects in a memory,
so that a later edit of the scheduler output is one of the object under a key.

Main results:

- Theorem `recorded_after_edits`: later edits of the scheduler output leave the record.
- Theorem `rejectUnvalidatedDrafts_draft` and `maskUnvalidatedDraftsV2_draft`: the
  drafts of both runners.
- Theorem `only_checked_drafts`: both runners verify the drafts that were checked, and the
  drafter keeps its own.
-/

namespace ArcticPlatform.SpecDecode

open Dicts Slices List

variable {κ : Type} [DecidableEq κ]

/-! ## The record of the scheduler -/

/-- The lists by address, and the list under each request of `scheduled_spec_decode_tokens`. -/
structure Scheduler (κ : Type) [DecidableEq κ] where
  memory : List (List Int)
  scheduled : Dict κ Nat
  allocated : ∀ reqId a, scheduled.get? reqId = some a → a < memory.length

/-- `GrammarOutput` with the attached `spec_token_ids`. -/
structure GrammarOutput (κ : Type) [DecidableEq κ] where
  structuredOutputRequestIds : List κ
  specTokenIds : Option (Dict κ Nat)

/-- One request of the comprehension: a new list with the ids of the scheduled one. -/
def recordRequest (scheduled : Dict κ Nat) (acc : List (List Int) × Dict κ Nat) (reqId : κ) :
    List (List Int) × Dict κ Nat :=
  match scheduled.get? reqId with
  | some a => (acc.1 ++ [acc.1.getD a []], acc.2.set reqId acc.1.length)
  | none => acc

/-- `attach_spec_token_ids`. -/
def attachSpecTokenIds (g : GrammarOutput κ) (s : Scheduler κ) : GrammarOutput κ × List (List Int) :=
  let acc := g.structuredOutputRequestIds.foldl (recordRequest s.scheduled) (s.memory, Dict.empty)
  ({ g with specTokenIds := some acc.2 }, acc.1)

/-- The ids that a dictionary of lists holds for a request. -/
def idsOf (memory : List (List Int)) (d : Dict κ Nat) (reqId : κ) : Option (List Int) :=
  (d.get? reqId).bind (memory[·]?)

/-- `spec_token_ids.get(req_id, ())`, with no ids before anything is attached. -/
def GrammarOutput.recorded (g : GrammarOutput κ) (memory : List (List Int)) (reqId : κ) : List Int :=
  match g.specTokenIds with
  | some d => (idsOf memory d reqId).getD []
  | none => []

/-- What may happen to the scheduler output later. -/
inductive Edit (κ : Type) where
  /-- The list under a key is changed in place. -/
  | mutate (reqId : κ) (ids : List Int)
  /-- A new list is put under a key. -/
  | assign (reqId : κ) (ids : List Int)
  | delete (reqId : κ)

/-- The memory and the scheduled lists after an edit. -/
def Edit.apply (state : List (List Int) × Dict κ Nat) : Edit κ → List (List Int) × Dict κ Nat
  | mutate reqId ids =>
    match state.2.get? reqId with
    | some a => (state.1.set a ids, state.2)
    | none => state
  | assign reqId ids => (state.1 ++ [ids], state.2.set reqId state.1.length)
  | delete reqId => (state.1, state.2.erase reqId)

/-! ## The two runners -/

/-- The part of the metadata of the first runner that is verified. -/
structure SpecDecodeMetadata where
  draftTokenIds : List Int
  numDraftTokens : List Nat

/-- `reject[a:b] = True`. -/
def rejectRange (reject : List Bool) (a b : Nat) : List Bool :=
  reject.mapIdx fun i r => r || (a ≤ i && i < b)

/-- One request of the loop: the mask so far and the start of the drafts. -/
def rejectRequest (recorded : κ → List Int) (acc : List Bool × Nat) (entry : κ × Nat) :
    List Bool × Nat :=
  let scheduled := (recorded entry.1).take entry.2
  (if -1 ∈ scheduled then rejectRange acc.1 (acc.2 + scheduled.idxOf (-1)) (acc.2 + entry.2) else acc.1,
    acc.2 + entry.2)

/-- `reject_unvalidated_drafts`. -/
def rejectUnvalidatedDrafts (recorded : κ → List Int) (reqIds : List κ) (md : SpecDecodeMetadata) :
    SpecDecodeMetadata :=
  let reject := ((reqIds.zip md.numDraftTokens).foldl (rejectRequest recorded)
    (replicate md.draftTokenIds.length false, 0)).1
  if reject.any id then
    { md with draftTokenIds := zipWith (fun d r => if r then -1 else d) md.draftTokenIds reject }
  else md

/-- The part of the input batch of the second runner that is verified. -/
structure InputBatch (κ : Type) where
  reqIds : List κ
  numDraftTokensPerReq : List Nat
  numDraftTokens : Nat
  cuNumLogits : List Nat
  logitsIndices : List Nat
  inputIds : List Int

/-- The logits rows of one request that are rejected. -/
def rejectedRows (recorded : κ → List Int) (b : InputBatch κ) (i : Nat) (reqId : κ) : List Nat :=
  let numDrafts := b.numDraftTokensPerReq.getD i 0
  let scheduled := (recorded reqId).take numDrafts
  if -1 ∈ scheduled then
    let first := b.cuNumLogits.getD i 0 + 1
    range' (first + scheduled.idxOf (-1)) (numDrafts - scheduled.idxOf (-1))
  else []

/-- `mask_unvalidated_drafts_v2`; `none` is an index error. -/
def maskUnvalidatedDraftsV2 (recorded : κ → List Int) (b : InputBatch κ) : Option (InputBatch κ) :=
  let rows := b.reqIds.zipIdx.flatMap fun entry => rejectedRows recorded b entry.2 entry.1
  if rows = [] then some b
  else do
    let positions ← rows.mapM (b.logitsIndices[·]?)
    some { b with inputIds := positions.foldl (fun ids p => ids.set p (-1)) b.inputIds }

/-- The batch that the patched `sample` of the second runner verifies. -/
def sampleV2 (recorded : Option (κ → List Int)) (b : InputBatch κ) : Option (InputBatch κ) :=
  match recorded with
  | some recorded => if b.numDraftTokens ≠ 0 then maskUnvalidatedDraftsV2 recorded b else some b
  | none => some b

/-- The first runner: the metadata of the step, and the override that `_sample` takes up. -/
structure Runner where
  executeModelState : Option (Option SpecDecodeMetadata)
  override : Option SpecDecodeMetadata

/-- `stage_sample_metadata`. -/
def stageSampleMetadata (runner : Runner) (recorded : Option (κ → List Int)) (reqIds : List κ) :
    Runner :=
  match recorded, runner.executeModelState with
  | some recorded, some (some md) =>
    { runner with override := some (rejectUnvalidatedDrafts recorded reqIds md) }
  | _, _ => { runner with override := none }

/-- `metadata_for_sample`. -/
def metadataForSample (runner : Runner) (md : Option SpecDecodeMetadata) : Option SpecDecodeMetadata :=
  match runner.override with
  | some override => some override
  | none => md

/-- `clear_sample_metadata`. -/
def clearSampleMetadata (runner : Runner) : Runner := { runner with override := none }

/-- The patched `sample_tokens`: the metadata that `_sample` verifies, the one that the
drafter sees, and the runner afterwards. -/
def sampleTokens (runner : Runner) (recorded : Option (κ → List Int)) (reqIds : List κ) :
    Option SpecDecodeMetadata × Option SpecDecodeMetadata × Runner :=
  let staged := stageSampleMetadata runner recorded reqIds
  let md := staged.executeModelState.join
  (metadataForSample staged md, md, clearSampleMetadata staged)

/-! ## What verification should see -/

/-- A draft that comes at or after the first placeholder of the recorded list. -/
def Unchecked (ids : List Int) (k : Nat) : Prop := -1 ∈ ids.take (k + 1)

instance (ids : List Int) (k : Nat) : Decidable (Unchecked ids k) :=
  inferInstanceAs (Decidable (-1 ∈ ids.take (k + 1)))

/-- A draft as it should be verified. -/
def checkedDraft (ids : List Int) (k : Nat) (draft : Option Int) : Option Int :=
  if Unchecked ids k then draft.map fun _ => -1 else draft

/-- Draft `k` of request `i` of the first runner. -/
def SpecDecodeMetadata.draft (md : SpecDecodeMetadata) (i k : Nat) : Option Int :=
  md.draftTokenIds[(md.numDraftTokens.take i).sum + k]?

/-- The place in the input of draft `k` of request `i` of the second runner. -/
def InputBatch.place (b : InputBatch κ) (i k : Nat) : Option Nat :=
  b.logitsIndices[b.cuNumLogits.getD i 0 + 1 + k]?

/-- Draft `k` of request `i` of the second runner. -/
def InputBatch.draft (b : InputBatch κ) (i k : Nat) : Option Int :=
  (b.place i k).bind (b.inputIds[·]?)

/-- The drafts before and after agree but for the unchecked ones, which are placeholders. -/
def ReplacesUnchecked (recorded : κ → List Int) (reqIds : List κ) (numDrafts : List Nat)
    (before after : Nat → Nat → Option Int) : Prop :=
  ∀ i reqId n k, reqIds[i]? = some reqId → numDrafts[i]? = some n → k < n →
    after i k = checkedDraft (recorded reqId) k (before i k)

/-- A place of the input that holds an unchecked draft. -/
def InputBatch.Rejected (recorded : κ → List Int) (b : InputBatch κ) (p : Nat) : Prop :=
  ∃ i reqId n k, b.reqIds[i]? = some reqId ∧ b.numDraftTokensPerReq[i]? = some n ∧ k < n ∧
    Unchecked (recorded reqId) k ∧ b.place i k = some p

/-- Request `i` owns the logits rows from its entry up to the next one. -/
structure InputBatch.WellFormed (b : InputBatch κ) : Prop where
  numDrafts : b.numDraftTokensPerReq.length = b.reqIds.length
  total : b.numDraftTokens = b.numDraftTokensPerReq.sum
  cu : b.cuNumLogits = cumulative (b.numDraftTokensPerReq.map (· + 1))
  indices_length : (b.numDraftTokensPerReq.map (· + 1)).sum ≤ b.logitsIndices.length
  indices_nodup : b.logitsIndices.Nodup
  indices_lt : ∀ p ∈ b.logitsIndices, p < b.inputIds.length

/-! ## Later edits of the scheduler output -/

/-- The scheduled lists are in the memory and none of them is a recorded one. -/
structure Apart (state : List (List Int) × Dict κ Nat) (recorded : Dict κ Nat) : Prop where
  scheduled_lt : ∀ q a, state.2.get? q = some a → a < state.1.length
  recorded_lt : ∀ q a, recorded.get? q = some a → a < state.1.length
  apart : ∀ q q' a, recorded.get? q = some a → state.2.get? q' ≠ some a

theorem Apart.edit {state : List (List Int) × Dict κ Nat} {recorded : Dict κ Nat}
    (h : Apart state recorded) (e : Edit κ) :
    Apart (e.apply state) recorded ∧
      ∀ q, idsOf (e.apply state).1 recorded q = idsOf state.1 recorded q := by
  cases e with
  | mutate reqId ids =>
    cases hget : state.2.get? reqId with
    | none =>
      simp only [Edit.apply, hget]
      exact ⟨h, fun _ => trivial⟩
    | some a =>
      simp only [Edit.apply, hget]
      refine ⟨⟨by simpa using h.scheduled_lt, by simpa using h.recorded_lt, h.apart⟩, fun q => ?_⟩
      cases hq : recorded.get? q with
      | none => simp [idsOf, hq]
      | some b =>
        have hne : a ≠ b := fun hab => h.apart q reqId b hq (hab ▸ hget)
        simp [idsOf, hq, getElem?_set_ne hne]
  | assign reqId ids =>
    simp only [Edit.apply]
    refine ⟨⟨fun q a hq => ?_, fun q a hq => ?_, fun q q' a hq hq' => ?_⟩, fun q => ?_⟩
    · rw [length_append]
      rw [Dict.get?_set] at hq
      split_ifs at hq
      · cases hq
        exact Nat.lt_succ_self _
      · exact Nat.lt_succ_of_lt (h.scheduled_lt q a hq)
    · rw [length_append]
      exact Nat.lt_succ_of_lt (h.recorded_lt q a hq)
    · rw [Dict.get?_set] at hq'
      split_ifs at hq'
      · cases hq'
        exact lt_irrefl _ (h.recorded_lt q _ hq)
      · exact h.apart q q' a hq hq'
    · cases hq : recorded.get? q with
      | none => simp [idsOf, hq]
      | some b => simp [idsOf, hq, getElem?_append_left (h.recorded_lt q b hq)]
  | delete reqId =>
    simp only [Edit.apply]
    refine ⟨⟨fun q a hq => ?_, h.recorded_lt, fun q q' a hq hq' => ?_⟩, fun _ => trivial⟩
    · rw [Dict.get?_erase] at hq
      split_ifs at hq
      exact h.scheduled_lt q a hq
    · rw [Dict.get?_erase] at hq'
      split_ifs at hq'
      exact h.apart q q' a hq hq'

theorem Apart.edits {state : List (List Int) × Dict κ Nat} {recorded : Dict κ Nat}
    (h : Apart state recorded) (edits : List (Edit κ)) (q : κ) :
    idsOf (edits.foldl Edit.apply state).1 recorded q = idsOf state.1 recorded q := by
  induction edits generalizing state with
  | nil => rfl
  | cons e edits ih => rw [foldl_cons, ih (h.edit e).1, (h.edit e).2]

/-- What the comprehension has built after some of the requests. -/
structure RecordedSo (s : Scheduler κ) (seen : List κ) (acc : List (List Int) × Dict κ Nat) : Prop where
  kept : ∀ a < s.memory.length, acc.1[a]? = s.memory[a]?
  length_le : s.memory.length ≤ acc.1.length
  fresh : ∀ q a, acc.2.get? q = some a → s.memory.length ≤ a ∧ a < acc.1.length
  ids : ∀ q, idsOf acc.1 acc.2 q = if q ∈ seen then idsOf s.memory s.scheduled q else none

theorem RecordedSo.step {s : Scheduler κ} {seen : List κ} {acc : List (List Int) × Dict κ Nat}
    (h : RecordedSo s seen acc) (reqId : κ) :
    RecordedSo s (seen ++ [reqId]) (recordRequest s.scheduled acc reqId) := by
  cases hget : s.scheduled.get? reqId with
  | none =>
    simp only [recordRequest, hget]
    refine ⟨h.kept, h.length_le, h.fresh, fun q => ?_⟩
    rw [h.ids q]
    by_cases hq : q = reqId
    · subst hq
      simp [idsOf, hget]
    · simp [hq]
  | some a =>
    simp only [recordRequest, hget]
    have ha := s.allocated reqId a hget
    refine ⟨fun b hb => ?_, ?_, fun q b hq => ?_, fun q => ?_⟩
    · rw [getElem?_append_left (hb.trans_le h.length_le), h.kept b hb]
    · rw [length_append]
      exact Nat.le_succ_of_le h.length_le
    · rw [length_append]
      rw [Dict.get?_set] at hq
      split_ifs at hq
      · cases hq
        exact ⟨h.length_le, Nat.lt_succ_self _⟩
      · exact ⟨(h.fresh q b hq).1, Nat.lt_succ_of_lt (h.fresh q b hq).2⟩
    · by_cases hq : q = reqId
      · subst hq
        have hvalue : acc.1[a]?.getD [] = s.memory[a] := by
          rw [h.kept a ha, getElem?_eq_getElem ha, Option.getD_some]
        simp [idsOf, hget, hvalue, ha]
      · have hids := h.ids q
        rw [idsOf] at hids ⊢
        rw [Dict.get?_set_ne _ hq]
        simp only [mem_append, mem_singleton, hq, or_false]
        rw [← hids]
        cases hrec : acc.2.get? q with
        | none => rfl
        | some b => simp [getElem?_append_left (h.fresh q b hrec).2]

theorem recordedSo_attach (g : GrammarOutput κ) (s : Scheduler κ) :
    RecordedSo s g.structuredOutputRequestIds
      (g.structuredOutputRequestIds.foldl (recordRequest s.scheduled) (s.memory, Dict.empty)) := by
  have hrun : ∀ (ids seen : List κ) acc, RecordedSo s seen acc →
      RecordedSo s (seen ++ ids) (ids.foldl (recordRequest s.scheduled) acc) := by
    intro ids
    induction ids with
    | nil =>
      intro seen acc h
      rwa [append_nil]
    | cons reqId ids ih =>
      intro seen acc h
      rw [foldl_cons, ← singleton_append, ← append_assoc]
      exact ih _ _ (h.step reqId)
  exact hrun _ [] _ ⟨fun _ _ => rfl, le_rfl, by simp, fun q => by simp [idsOf]⟩

/-- The record is the lists as they were, whatever happens to the scheduler output later. -/
theorem recorded_after_edits (g : GrammarOutput κ) (s : Scheduler κ) (edits : List (Edit κ)) (q : κ) :
    (attachSpecTokenIds g s).1.recorded
        (edits.foldl Edit.apply ((attachSpecTokenIds g s).2, s.scheduled)).1 q =
      if q ∈ g.structuredOutputRequestIds then (idsOf s.memory s.scheduled q).getD [] else [] := by
  have h := recordedSo_attach g s
  have hapart : Apart ((attachSpecTokenIds g s).2, s.scheduled)
      (g.structuredOutputRequestIds.foldl (recordRequest s.scheduled) (s.memory, Dict.empty)).2 := by
    refine ⟨fun q a hq => (s.allocated q a hq).trans_le h.length_le, fun q a hq => (h.fresh q a hq).2, ?_⟩
    intro q q' a hq hq'
    exact absurd (s.allocated q' a hq') (Nat.not_lt.mpr (h.fresh q a hq).1)
  have hedits := hapart.edits edits q
  simp only [GrammarOutput.recorded, attachSpecTokenIds] at hedits ⊢
  rw [hedits, h.ids q]
  split_ifs <;> rfl

/-! ## The first runner -/

/-- What is rejected of the drafts of one request. -/
def flags (numDrafts : Nat) (ids : List Int) : List Bool :=
  (range numDrafts).map fun k => decide (Unchecked ids k)

theorem unchecked_iff {ids : List Int} {n k : Nat} (hk : k < n) :
    Unchecked ids k ↔ -1 ∈ ids.take n ∧ (ids.take n).idxOf (-1) ≤ k := by
  have htake : ids.take (k + 1) = (ids.take n).take (k + 1) := by
    rw [take_take, min_eq_left hk]
  rw [Unchecked, htake]
  constructor
  · intro h
    have hmem := mem_of_mem_take h
    exact ⟨hmem, Nat.le_of_lt_succ ((mem_take_iff_idxOf_lt hmem).mp h)⟩
  · intro h
    exact (mem_take_iff_idxOf_lt h.1).mpr (Nat.lt_succ_of_le h.2)

variable (recorded : κ → List Int)

omit [DecidableEq κ] in
theorem rejectRequest_eq (done : List Bool) (reqId : κ) (n rest : Nat) :
    rejectRequest recorded (done ++ replicate (n + rest) false, done.length) (reqId, n) =
      (done ++ flags n (recorded reqId) ++ replicate rest false,
        (done ++ flags n (recorded reqId)).length) := by
  have hlength : (flags n (recorded reqId)).length = n := by simp [flags]
  rw [rejectRequest]
  refine Prod.ext ?_ (by rw [length_append, hlength])
  dsimp only
  apply ext_getElem?
  intro i
  rw [append_assoc]
  rcases lt_or_ge i done.length with hi | hi
  · rw [getElem?_append_left hi]
    split_ifs
    · rw [rejectRange, getElem?_mapIdx, getElem?_append_left hi, getElem?_eq_getElem hi]
      simp [show ¬done.length + ((recorded reqId).take n).idxOf (-1) ≤ i by omega]
    · exact getElem?_append_left hi
  · obtain ⟨k, rfl⟩ := Nat.exists_eq_add_of_le hi
    rw [getElem?_append_right hi, Nat.add_sub_cancel_left]
    rcases lt_or_ge k n with hk | hk
    · rw [getElem?_append_left (hlength.symm ▸ hk)]
      have hflag : (flags n (recorded reqId))[k]? = some (decide (Unchecked (recorded reqId) k)) := by
        simp [flags, hk]
      rw [hflag]
      split_ifs with hmem
      · simp [rejectRange, hk, unchecked_iff hk, hmem, show k < n + rest by omega]
      · simp [unchecked_iff hk, hmem, show k < n + rest by omega]
    · have hsplit : k < n + rest ↔ k - n < rest := by omega
      rw [getElem?_append_right (hlength.symm ▸ hk), hlength]
      have hbefore : (done ++ replicate (n + rest) false)[done.length + k]? =
          (replicate rest false)[k - n]? := by
        rw [getElem?_append_right hi, Nat.add_sub_cancel_left]
        simp only [getElem?_replicate, hsplit]
      rw [← hbefore]
      split_ifs
      · simp [rejectRange, show ¬k < n by omega]
      · rfl

omit [DecidableEq κ] in
theorem rejectLoop_eq (entries : List (κ × Nat)) (done : List Bool) :
    (entries.foldl (rejectRequest recorded)
        (done ++ replicate (entries.map Prod.snd).sum false, done.length)).1 =
      done ++ entries.flatMap fun entry => flags entry.2 (recorded entry.1) := by
  induction entries generalizing done with
  | nil => simp
  | cons entry entries ih =>
    rw [map_cons, sum_cons, foldl_cons, rejectRequest_eq, ih, flatMap_cons, append_assoc]

variable {reqIds : List κ}

section

omit [DecidableEq κ]

theorem length_flags_flatMap {numDrafts : List Nat} (hlength : numDrafts.length = reqIds.length) :
    ((reqIds.zip numDrafts).flatMap fun entry => flags entry.2 (recorded entry.1)).length =
      numDrafts.sum := by
  rw [length_flatMap]
  conv_rhs => rw [← map_snd_zip hlength.le]
  exact congrArg sum (map_congr_left fun entry _ => by simp [flags])

theorem rejectUnvalidatedDrafts_eq {md : SpecDecodeMetadata}
    (hlength : md.numDraftTokens.length = reqIds.length)
    (htotal : md.draftTokenIds.length = md.numDraftTokens.sum) :
    rejectUnvalidatedDrafts recorded reqIds md = { md with
        draftTokenIds := zipWith (fun d r => if r then -1 else d) md.draftTokenIds
          ((reqIds.zip md.numDraftTokens).flatMap fun entry => flags entry.2 (recorded entry.1)) } := by
  have hnums : (reqIds.zip md.numDraftTokens).map Prod.snd = md.numDraftTokens :=
    map_snd_zip hlength.le
  have hloop : ((reqIds.zip md.numDraftTokens).foldl (rejectRequest recorded)
      (replicate md.draftTokenIds.length false, 0)).1 =
        (reqIds.zip md.numDraftTokens).flatMap fun entry => flags entry.2 (recorded entry.1) := by
    simpa [hnums, htotal] using rejectLoop_eq recorded (reqIds.zip md.numDraftTokens) []
  rw [rejectUnvalidatedDrafts]
  simp only [hloop]
  split_ifs with hany
  · rfl
  · have hflags : (reqIds.zip md.numDraftTokens).flatMap (fun entry => flags entry.2 (recorded entry.1)) =
        replicate md.draftTokenIds.length false := by
      exact eq_replicate_iff.mpr
        ⟨(length_flags_flatMap recorded hlength).trans htotal.symm, by simpa using hany⟩
    have hkept : zipWith (fun d r => if r then -1 else d) md.draftTokenIds
        (replicate md.draftTokenIds.length false) = md.draftTokenIds := by
      apply ext_getElem?
      intro k
      rw [getElem?_zipWith]
      by_cases hk : k < md.draftTokenIds.length <;> simp [hk]
    rw [hflags, hkept]

/-- The drafts of the first runner. -/
theorem rejectUnvalidatedDrafts_draft {md : SpecDecodeMetadata}
    (hlength : md.numDraftTokens.length = reqIds.length)
    (htotal : md.draftTokenIds.length = md.numDraftTokens.sum) :
    ReplacesUnchecked recorded reqIds md.numDraftTokens md.draft
      (rejectUnvalidatedDrafts recorded reqIds md).draft := by
  intro i reqId n k hreq hn hk
  have hblocks : ((reqIds.zip md.numDraftTokens).map fun entry => flags entry.2 (recorded entry.1))[i]? =
      some (flags n (recorded reqId)) := by
    rw [getElem?_map, (getElem?_zip_eq_some (z := (reqId, n))).mpr ⟨hreq, hn⟩, Option.map_some]
  have hlengths : ((reqIds.zip md.numDraftTokens).map fun entry =>
      flags entry.2 (recorded entry.1)).map List.length = md.numDraftTokens := by
    rw [map_map]
    nth_rewrite 2 [← map_snd_zip hlength.le]
    exact map_congr_left fun entry _ => by simp [flags]
  have hflag := getElem?_flatten_add hblocks (show k < (flags n (recorded reqId)).length by simpa [flags])
  rw [hlengths, ← flatMap_def] at hflag
  rw [rejectUnvalidatedDrafts_eq recorded hlength htotal, SpecDecodeMetadata.draft,
    SpecDecodeMetadata.draft, getElem?_zipWith, hflag]
  simp only [flags, checkedDraft, getElem?_map, getElem?_range hk, Option.map_some]
  cases md.draftTokenIds[(md.numDraftTokens.take i).sum + k]? with
  | none => simp
  | some d => by_cases h : Unchecked (recorded reqId) k <;> simp [h]

end

/-! ## The second runner -/

variable {b : InputBatch κ}

omit [DecidableEq κ] in
theorem mem_rejectedRows {recorded : κ → List Int} {i n r : Nat} {reqId : κ}
    (hn : b.numDraftTokensPerReq[i]? = some n) :
    r ∈ rejectedRows recorded b i reqId ↔
      ∃ k < n, Unchecked (recorded reqId) k ∧ r = b.cuNumLogits.getD i 0 + 1 + k := by
  have hget : b.numDraftTokensPerReq.getD i 0 = n := by
    rw [getD_eq_getElem?_getD, hn, Option.getD_some]
  rw [rejectedRows, hget]
  by_cases hmem : -1 ∈ (recorded reqId).take n
  · rw [if_pos hmem]
    have hfirst : ((recorded reqId).take n).idxOf (-1) < n :=
      (idxOf_lt_length_of_mem hmem).trans_le (length_take_le _ _)
    rw [mem_range'_1]
    constructor
    · intro h
      refine ⟨r - (b.cuNumLogits.getD i 0 + 1), by omega, ?_, by omega⟩
      exact (unchecked_iff (by omega)).mpr ⟨hmem, by omega⟩
    · rintro ⟨k, hk, hunchecked, rfl⟩
      have := ((unchecked_iff hk).mp hunchecked).2
      omega
  · rw [if_neg hmem]
    refine ⟨fun h => absurd h not_mem_nil, ?_⟩
    rintro ⟨k, hk, hunchecked, -⟩
    exact absurd ((unchecked_iff hk).mp hunchecked).1 hmem

section WellFormed

variable {b : InputBatch κ} (h : b.WellFormed)
include h

section

omit [DecidableEq κ]

theorem InputBatch.WellFormed.cu_getD {i n : Nat} (hn : b.numDraftTokensPerReq[i]? = some n) :
    b.cuNumLogits.getD i 0 = ((b.numDraftTokensPerReq.map (· + 1)).take i).sum ∧
      ((b.numDraftTokensPerReq.map (· + 1)).take (i + 1)).sum = b.cuNumLogits.getD i 0 + (n + 1) := by
  have hi := (List.getElem?_eq_some_iff.mp hn).1
  have hcu : b.cuNumLogits.getD i 0 = ((b.numDraftTokensPerReq.map (· + 1)).take i).sum := by
    rw [getD_eq_getElem?_getD, h.cu, cumulative_getElem? (by simpa using hi.le), Option.getD_some]
  refine ⟨hcu, ?_⟩
  rw [hcu]
  exact sum_take_succ (by rw [getElem?_map, hn, Option.map_some])

theorem InputBatch.WellFormed.row_lt {i n k : Nat} (hn : b.numDraftTokensPerReq[i]? = some n)
    (hk : k < n) : b.cuNumLogits.getD i 0 + 1 + k < b.logitsIndices.length := by
  have hnext := (h.cu_getD hn).2
  have htotal := (sum_take_le_sum (b.numDraftTokensPerReq.map (· + 1)) (i + 1)).trans h.indices_length
  omega

theorem InputBatch.WellFormed.place_inj {i j n m k l p : Nat}
    (hn : b.numDraftTokensPerReq[i]? = some n) (hm : b.numDraftTokensPerReq[j]? = some m) (hk : k < n)
    (hl : l < m) (hp : b.place i k = some p) (hq : b.place j l = some p) : i = j ∧ k = l := by
  have hrow : b.cuNumLogits.getD i 0 + 1 + k = b.cuNumLogits.getD j 0 + 1 + l := by
    rw [InputBatch.place] at hp hq
    exact (getElem?_inj (h.row_lt hn hk) h.indices_nodup).mp (hp.trans hq.symm)
  have hi := h.cu_getD hn
  have hj := h.cu_getD hm
  rcases lt_trichotomy i j with hij | rfl | hij
  · have := sum_take_mono (b.numDraftTokensPerReq.map (· + 1)) (show i + 1 ≤ j from hij)
    omega
  · exact ⟨rfl, by omega⟩
  · have := sum_take_mono (b.numDraftTokensPerReq.map (· + 1)) (show j + 1 ≤ i from hij)
    omega

end

end WellFormed

theorem getElem?_eq_some_getD {l : List Nat} {r : Nat} (hr : r < l.length) : l[r]? = some (l.getD r 0) := by
  rw [getD_eq_getElem?_getD, getElem?_eq_getElem hr, Option.getD_some]

theorem getElem?_foldl_set (positions : List Nat) (ids : List Int) (x : Nat) :
    (positions.foldl (fun ids p => ids.set p (-1)) ids)[x]? =
      if x ∈ positions then ids[x]?.map (fun _ => -1) else ids[x]? := by
  induction positions generalizing ids with
  | nil => simp
  | cons p positions ih =>
    rw [foldl_cons, ih, getElem?_set']
    by_cases hx : p = x
    · subst hx
      cases ids[p]? <;> simp
    · simp [hx, Ne.symm hx]

section

omit [DecidableEq κ]

theorem mem_rows {recorded : κ → List Int} (h : b.WellFormed) {r : Nat} :
    (r ∈ b.reqIds.zipIdx.flatMap fun entry => rejectedRows recorded b entry.2 entry.1) ↔
      ∃ i reqId n k, b.reqIds[i]? = some reqId ∧ b.numDraftTokensPerReq[i]? = some n ∧ k < n ∧
        Unchecked (recorded reqId) k ∧ r = b.cuNumLogits.getD i 0 + 1 + k := by
  rw [mem_flatMap]
  constructor
  · rintro ⟨⟨reqId, i⟩, hentry, hr⟩
    have hreq := mem_zipIdx_iff_getElem?.mp hentry
    have hi : i < b.numDraftTokensPerReq.length := by
      rw [h.numDrafts]
      exact (List.getElem?_eq_some_iff.mp hreq).1
    have hn := getElem?_eq_getElem hi
    obtain ⟨k, hk, hunchecked, rfl⟩ := (mem_rejectedRows hn).mp hr
    exact ⟨i, reqId, _, k, hreq, hn, hk, hunchecked, rfl⟩
  · rintro ⟨i, reqId, n, k, hreq, hn, hk, hunchecked, rfl⟩
    exact ⟨(reqId, i), mem_zipIdx_iff_getElem?.mpr hreq,
      (mem_rejectedRows hn).mpr ⟨k, hk, hunchecked, rfl⟩⟩

theorem maskUnvalidatedDraftsV2_inputIds (h : b.WellFormed) :
    ∃ ids, maskUnvalidatedDraftsV2 recorded b = some { b with inputIds := ids } ∧
      ∀ p, (b.Rejected recorded p → ids[p]? = b.inputIds[p]?.map fun _ => -1) ∧
        (¬b.Rejected recorded p → ids[p]? = b.inputIds[p]?) := by
  let rows := b.reqIds.zipIdx.flatMap fun entry => rejectedRows recorded b entry.2 entry.1
  have hrejected : ∀ p, b.Rejected recorded p ↔ ∃ r ∈ rows, b.logitsIndices[r]? = some p := by
    intro p
    constructor
    · rintro ⟨i, reqId, n, k, hreq, hn, hk, hunchecked, hp⟩
      exact ⟨_, (mem_rows h).mpr ⟨i, reqId, n, k, hreq, hn, hk, hunchecked, rfl⟩, hp⟩
    · rintro ⟨r, hr, hp⟩
      obtain ⟨i, reqId, n, k, hreq, hn, hk, hunchecked, rfl⟩ := (mem_rows h).mp hr
      exact ⟨i, reqId, n, k, hreq, hn, hk, hunchecked, hp⟩
  by_cases hnone : rows = []
  · refine ⟨b.inputIds, if_pos hnone, fun p => ⟨fun hp => ?_, fun _ => rfl⟩⟩
    obtain ⟨r, hr, -⟩ := (hrejected p).mp hp
    exact absurd (hnone ▸ hr) not_mem_nil
  · have hpositions : rows.mapM (b.logitsIndices[·]?) = some (rows.map (b.logitsIndices.getD · 0)) := by
      refine Results.mapM_eq_some_map fun r hr => ?_
      obtain ⟨i, reqId, n, k, -, hn, hk, -, rfl⟩ := (mem_rows h).mp hr
      exact getElem?_eq_some_getD (h.row_lt hn hk)
    have hmem : ∀ p, p ∈ rows.map (b.logitsIndices.getD · 0) ↔ b.Rejected recorded p := by
      intro p
      rw [hrejected, mem_map]
      refine exists_congr fun r => and_congr_right fun hr => ?_
      obtain ⟨i, reqId, n, k, -, hn, hk, -, rfl⟩ := (mem_rows h).mp hr
      rw [getElem?_eq_some_getD (h.row_lt hn hk), Option.some_inj]
    refine ⟨_, (if_neg hnone).trans (by rw [hpositions]; rfl), fun p => ⟨fun hp => ?_, fun hp => ?_⟩⟩
    · rw [getElem?_foldl_set, if_pos ((hmem p).mpr hp)]
    · rw [getElem?_foldl_set, if_neg fun hp' => hp ((hmem p).mp hp')]

theorem sampleV2_draft (h : b.WellFormed) :
    ∃ ids, sampleV2 (some recorded) b = some { b with inputIds := ids } ∧
      (∀ p, ¬b.Rejected recorded p → ids[p]? = b.inputIds[p]?) ∧
      ReplacesUnchecked recorded b.reqIds b.numDraftTokensPerReq b.draft
        { b with inputIds := ids }.draft := by
  have hdrafts : ∃ ids, sampleV2 (some recorded) b = some { b with inputIds := ids } ∧
      ∀ p, (b.Rejected recorded p → ids[p]? = b.inputIds[p]?.map fun _ => -1) ∧
        (¬b.Rejected recorded p → ids[p]? = b.inputIds[p]?) := by
    by_cases hzero : b.numDraftTokens = 0
    · refine ⟨b.inputIds, if_neg (not_not.mpr hzero), fun p => ⟨fun hp => ?_, fun _ => rfl⟩⟩
      obtain ⟨i, reqId, n, k, -, hn, hk, -, -⟩ := hp
      have hsum := single_le_sum (by simp) n (mem_of_getElem? hn)
      rw [← h.total, hzero] at hsum
      exact absurd hk (by omega)
    · simpa [sampleV2, hzero] using maskUnvalidatedDraftsV2_inputIds recorded h
  obtain ⟨ids, hsample, hids⟩ := hdrafts
  refine ⟨ids, hsample, fun p => (hids p).2, fun i reqId n k hreq hn hk => ?_⟩
  obtain ⟨p, hp⟩ : ∃ p, b.place i k = some p := ⟨_, getElem?_eq_getElem (h.row_lt hn hk)⟩
  have hbefore : b.draft i k = b.inputIds[p]? := by rw [InputBatch.draft, hp, Option.bind_some]
  have hafter : { b with inputIds := ids }.draft i k = ids[p]? := by
    rw [InputBatch.draft]
    exact (congrArg (Option.bind · (ids[·]?)) hp).trans rfl
  rw [hbefore, hafter, checkedDraft]
  split_ifs with hunchecked
  · exact (hids p).1 ⟨i, reqId, n, k, hreq, hn, hk, hunchecked, hp⟩
  · refine (hids p).2 fun ⟨j, reqId', m, l, hreq', hm, hl, hunchecked', hp'⟩ => ?_
    obtain ⟨rfl, rfl⟩ := h.place_inj hn hm hk hl hp hp'
    rw [hreq, Option.some_inj] at hreq'
    exact hunchecked (hreq' ▸ hunchecked')

end

/-! ## Both runners -/

/-- The ids of the drafts a structured request is checked for. -/
def checkedIds (g : GrammarOutput κ) (s : Scheduler κ) (reqId : κ) : List Int :=
  if reqId ∈ g.structuredOutputRequestIds then (idsOf s.memory s.scheduled reqId).getD [] else []

/-- The record that the runners read after later edits of the scheduler output. -/
def recordRead (g : GrammarOutput κ) (s : Scheduler κ) (edits : List (Edit κ)) (reqId : κ) : List Int :=
  (attachSpecTokenIds g s).1.recorded
    (edits.foldl Edit.apply ((attachSpecTokenIds g s).2, s.scheduled)).1 reqId

/-- Both runners verify the drafts that were checked, and the drafter keeps its own. -/
theorem only_checked_drafts (g : GrammarOutput κ) (s : Scheduler κ) (edits : List (Edit κ))
    {md : SpecDecodeMetadata} (runner : Runner) (hstate : runner.executeModelState = some (some md))
    {reqIds : List κ} (hlength : md.numDraftTokens.length = reqIds.length)
    (htotal : md.draftTokenIds.length = md.numDraftTokens.sum) {b : InputBatch κ} (h : b.WellFormed) :
    ∃ verified ids, sampleTokens runner (some (recordRead g s edits)) reqIds =
        (some verified, some md, clearSampleMetadata runner) ∧
      verified.numDraftTokens = md.numDraftTokens ∧
      verified.draftTokenIds.length = md.draftTokenIds.length ∧
      ReplacesUnchecked (checkedIds g s) reqIds md.numDraftTokens md.draft verified.draft ∧
      sampleV2 (some (recordRead g s edits)) b = some { b with inputIds := ids } ∧
      (∀ p, ¬b.Rejected (checkedIds g s) p → ids[p]? = b.inputIds[p]?) ∧
      ReplacesUnchecked (checkedIds g s) b.reqIds b.numDraftTokensPerReq b.draft
        { b with inputIds := ids }.draft ∧
      (reqIds = b.reqIds → md.numDraftTokens = b.numDraftTokensPerReq →
        ∀ i n k, md.numDraftTokens[i]? = some n → k < n → md.draft i k = b.draft i k →
          verified.draft i k = { b with inputIds := ids }.draft i k) := by
  have hrecord : recordRead g s edits = checkedIds g s := funext (recorded_after_edits g s edits)
  have hv1 := rejectUnvalidatedDrafts_draft (checkedIds g s) hlength htotal
  obtain ⟨ids, hsample, hkept, hv2⟩ := sampleV2_draft (checkedIds g s) h
  refine ⟨rejectUnvalidatedDrafts (checkedIds g s) reqIds md, ids, ?_, ?_, ?_, hv1, ?_, hkept, hv2,
    fun hreqs hnums i n k hn hk hdraft => ?_⟩
  · simp [sampleTokens, stageSampleMetadata, metadataForSample, clearSampleMetadata, hstate, hrecord]
  · rw [rejectUnvalidatedDrafts_eq _ hlength htotal]
  · rw [rejectUnvalidatedDrafts_eq _ hlength htotal, length_zipWith,
      length_flags_flatMap _ hlength, htotal, min_self]
  · rw [hrecord, hsample]
  · have hi : i < reqIds.length := hlength ▸ (List.getElem?_eq_some_iff.mp hn).1
    obtain ⟨reqId, hreq⟩ : ∃ reqId, reqIds[i]? = some reqId := ⟨_, getElem?_eq_getElem hi⟩
    rw [hv1 i _ n k hreq hn hk, hdraft]
    rw [hreqs] at hreq
    rw [hnums] at hn
    exact (hv2 i _ n k hreq hn hk).symm

/-- Two requests with two and one drafts, whose lists are cut and edited after the record. -/
theorem only_checked_drafts_two_requests :
    let s : Scheduler Nat :=
      { memory := [[5, -1, 6], [7]]
        scheduled := (Dict.empty.set 0 0).set 1 1
        allocated := by
          intro q a hq
          simp only [Dict.get?_set] at hq
          split_ifs at hq
          · cases hq
            decide
          · cases hq
            decide
          · rw [Dict.get?_empty] at hq
            cases hq }
    let g : GrammarOutput Nat := { structuredOutputRequestIds := [0, 1], specTokenIds := none }
    let md : SpecDecodeMetadata := { draftTokenIds := [5, 8, 7], numDraftTokens := [2, 1] }
    let b : InputBatch Nat :=
      { reqIds := [0, 1]
        numDraftTokensPerReq := [2, 1]
        numDraftTokens := 3
        cuNumLogits := [0, 3, 5]
        logitsIndices := [0, 1, 2, 3, 4]
        inputIds := [1, 5, 8, 2, 7] }
    let record := some (recordRead g s [.mutate 0 [5, 8, 6]])
    ∃ verified ids, sampleTokens ⟨some (some md), none⟩ record [0, 1] =
        (some verified, some md, clearSampleMetadata ⟨some (some md), none⟩) ∧
      verified.numDraftTokens = [2, 1] ∧ verified.draftTokenIds.length = 3 ∧
      ReplacesUnchecked (checkedIds g s) [0, 1] [2, 1] md.draft verified.draft ∧
      sampleV2 record b = some { b with inputIds := ids } ∧
      (∀ p, ¬b.Rejected (checkedIds g s) p → ids[p]? = b.inputIds[p]?) ∧
      ReplacesUnchecked (checkedIds g s) [0, 1] [2, 1] b.draft { b with inputIds := ids }.draft ∧
      ∀ i n k, [2, 1][i]? = some n → k < n → md.draft i k = b.draft i k →
        verified.draft i k = { b with inputIds := ids }.draft i k := by
  intro s g md b record
  have hb : b.WellFormed := ⟨rfl, rfl, rfl, by decide, by decide, by decide⟩
  obtain ⟨verified, ids, hv1, hnums, hids, hdrafts, hv2, hkept, hdrafts', hsame⟩ :=
    @only_checked_drafts Nat _ g s [.mutate 0 [5, 8, 6]] md ⟨some (some md), none⟩ rfl [0, 1] rfl rfl b hb
  exact ⟨verified, ids, hv1, hnums, hids, hdrafts, hv2, hkept, hdrafts', hsame rfl rfl⟩

end ArcticPlatform.SpecDecode
