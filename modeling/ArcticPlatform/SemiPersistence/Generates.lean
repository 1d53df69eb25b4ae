import ArcticPlatform.Library.Runs
import Mathlib.Data.List.Nodup

/-!
# Answers to generate requests

An embedding of how a request gets its answer: `Orchestrator.submit_generate`, `_on_generate_done`
and `_fail_all_inflight` of `inference/semi_persistence/orchestrator.py` and the second phase
of `GenerateOp.execute` of `pipeline.py`, for one model.  A step is what runs under `gen_lock`,
or what one thread does between two waits.

Main results:

- Theorem `generates_get_own_answers`: a record is completed at most once in every run; it is
  completed as done by its own result only, and its caller gets the outputs of that result, in every
  run whose steps meet `Guarded`.
-/

namespace ArcticPlatform.SemiPersistence.Generates

open Runs List Function

/-- `q_rec["state"]`. -/
inductive RecordState where
  | waiting
  | generating
  | done
  | error
  deriving DecidableEq

/-- A request: its record, the id that the engine knows it by, its `done_event`, and whether its
future is resolved. -/
structure Request where
  state : RecordState
  rid : Option Nat
  event : Bool
  resolved : Bool

/-- `t_done` is set. -/
def Request.settled (r : Request) : Bool := r.state = .done ∨ r.state = .error

/-- An entry of `_inflight`. -/
structure Inflight where
  rid : Nat
  request : Nat
  deriving DecidableEq

/-- What has happened to requests. -/
inductive Event (β : Type) where
  /-- A record is completed as done by a result with an id. -/
  | done (request : Nat) (byRid : Option Nat)
  /-- A record is completed as failed. -/
  | failed (request : Nat)
  /-- The future is resolved with outputs. -/
  | answered (request : Nat) (outputs : List β)
  /-- The future is resolved with an exception. -/
  | raised (request : Nat)
  deriving DecidableEq

/-- A result of the worker: the id that it carries, and outputs unless it is an error. -/
structure Result (β : Type) where
  rid : Option Nat
  outputs : Option (List β)

variable {β : Type}

/-- The state of one model. -/
structure State (β : Type) where
  requests : Nat → Request
  /-- The number of requests that have been submitted. -/
  count : Nat
  /-- `_next_req_id` -/
  nextRid : Nat
  inflight : List Inflight
  /-- `generate_results` -/
  results : Nat → Option (List β)
  /-- The model is registered with an instance. -/
  live : Bool
  /-- The result that the demuxer has applied and not yet given to the listener. -/
  handling : Option (Result β)
  /-- The outputs that the engine has produced for an id. -/
  produced : List (Nat × List β)
  log : List (Event β)

def new : State β :=
  ⟨fun _ => ⟨.waiting, none, false, false⟩, 0, 0, [], fun _ => none, true, none, [], []⟩

def State.setRequest (s : State β) (q : Nat) (r : Request) : State β :=
  { s with requests := Function.update s.requests q r }

/-- The entry that `_on_generate_done` takes for a result: the one with its id, else the oldest. -/
def matched (inflight : List Inflight) (rid : Option Nat) : Option Inflight :=
  match inflight.find? fun e => some e.rid = rid with
  | some e => some e
  | none => inflight.head?

/-- `_on_generate_done`. -/
def onGenerateDone (s : State β) (result : Result β) : State β :=
  if s.live then
    match matched s.inflight result.rid with
    | none => s
    | some e =>
      let s := { s with inflight := s.inflight.erase e }
      match result.outputs with
      | none =>
        { s.setRequest e.request { s.requests e.request with state := .error, event := true } with
          log := s.log ++ [.failed e.request] }
      | some _ =>
        { s.setRequest e.request { s.requests e.request with state := .done, event := true } with
          log := s.log ++ [.done e.request result.rid] }
  else s

/-- `_fail_all_inflight`, one entry. -/
def failOne (s : State β) (e : Inflight) : State β :=
  let r := s.requests e.request
  if r.settled then s.setRequest e.request { r with event := true }
  else
    { s.setRequest e.request { r with state := .error, event := true } with
      log := s.log ++ [.failed e.request] }

/-- `_fail_all_inflight`. -/
def failAllInflight (s : State β) : State β := s.inflight.foldl failOne { s with inflight := [] }

/-- What a thread does. -/
inductive Act (β : Type) where
  /-- `submit_generate` -/
  | submit
  /-- `GenerateOp.execute` raises before its second phase, and `_wait_and_collect` sees that. -/
  | opFails (q : Nat)
  /-- The second phase of `GenerateOp.execute` -/
  | send (q : Nat)
  /-- The second phase, when `inst.generate` raises -/
  | sendFails (q : Nat)
  /-- The demuxer takes a result and applies it. -/
  | apply (result : Result β)
  /-- The demuxer calls the listener. -/
  | listen
  | failAll
  /-- `_wait_and_collect` after the event -/
  | collect (q : Nat)
  /-- The instance of the model comes or goes. -/
  | setLive (live : Bool)

/-- One step of a thread, if it can take it. -/
def step (s : State β) : Act β → Option (State β)
  | .submit => some { s with count := s.count + 1 }
  | .opFails q =>
    let r := s.requests q
    if q < s.count ∧ r.state = .waiting then
      some { s.setRequest q { r with state := .error, resolved := true } with
        log := s.log ++ [.failed q, .raised q] }
    else none
  | .send q =>
    let r := s.requests q
    if q < s.count ∧ r.state = .waiting ∧ s.live then
      some { s.setRequest q { r with state := .generating, rid := some s.nextRid } with
        nextRid := s.nextRid + 1, inflight := s.inflight ++ [⟨s.nextRid, q⟩] }
    else none
  | .sendFails q =>
    let r := s.requests q
    if q < s.count ∧ r.state = .waiting ∧ s.live then
      some { s.setRequest q { r with state := .error, event := true } with
        log := s.log ++ [.failed q] }
    else none
  | .apply result =>
    match s.handling with
    | some _ => none
    | none =>
      match result.rid, result.outputs with
      | some rid, some outputs =>
        some { s with
          results := Function.update s.results rid (some outputs)
          produced := (rid, outputs) :: s.produced
          handling := some result }
      | _, _ => some { s with handling := some result }
  | .listen =>
    match s.handling with
    | none => none
    | some result => some { onGenerateDone s result with handling := none }
  | .failAll => some (failAllInflight s)
  | .collect q =>
    let r := s.requests q
    if r.event ∧ ¬ r.resolved then
      match r.state, r.rid with
      | .done, some rid =>
        some { s.setRequest q { r with resolved := true } with
          results := Function.update s.results rid none
          log := s.log ++ [.answered q ((s.results rid).getD [])] }
      | _, _ =>
        some { s.setRequest q { r with resolved := true } with log := s.log ++ [.answered q []] }
    else none
  | .setLive live => some { s with live := live }

/-! ## What requests are promised -/

/-- The requests whose records have been completed. -/
def completed (log : List (Event β)) : List Nat :=
  log.filterMap fun
    | .done q _ => some q
    | .failed q => some q
    | _ => none

/-- A request gets its own answer. -/
structure OwnAnswers (s : State β) : Prop where
  /-- Its record is completed as done by the result with its id. -/
  own : ∀ q byRid, .done q byRid ∈ s.log → byRid ≠ none ∧ byRid = (s.requests q).rid
  /-- Its caller gets what the engine has produced for its id. -/
  outputs : ∀ q outputs, .answered q outputs ∈ s.log → (s.requests q).state = .done →
    ∃ rid, (s.requests q).rid = some rid ∧ (rid, outputs) ∈ s.produced

/-- A result with outputs reaches the listener while its request is in flight, or while none is. -/
def Guarded (s : State β) : Act β → Prop
  | .listen => ∀ result ∈ s.handling, result.outputs ≠ none →
    s.inflight = [] ∨ ∃ e ∈ s.inflight, some e.rid = result.rid
  | _ => True

instance [DecidableEq β] (s : State β) (a : Act β) : Decidable (Guarded s a) :=
  match a with
  | .listen => inferInstanceAs (Decidable (∀ result ∈ s.handling, _ → _ ∨ _))
  | .submit | .opFails _ | .send _ | .sendFails _ | .apply _ | .failAll | .collect _ | .setLive _ =>
    inferInstanceAs (Decidable True)

/-! ## The invariant -/

/-- What holds in every run. -/
structure Valid (s : State β) : Prop where
  inflight : ∀ e ∈ s.inflight,
    (s.requests e.request).state = .generating ∧ (s.requests e.request).rid = some e.rid
  nodup : (s.inflight.map Inflight.request).Nodup
  ridInj : ∀ q q' rid, (s.requests q).rid = some rid → (s.requests q').rid = some rid → q = q'
  ridLt : ∀ q rid, (s.requests q).rid = some rid → rid < s.nextRid
  once : (completed s.log).Nodup
  settled : ∀ q ∈ completed s.log, (s.requests q).settled = true
  flags : ∀ q, (s.requests q).event = true ∨ (s.requests q).resolved = true →
    (s.requests q).settled = true
  answered : ∀ q outputs, .answered q outputs ∈ s.log → (s.requests q).resolved = true

theorem completed_append (log log' : List (Event β)) :
    completed (log ++ log') = completed log ++ completed log' := filterMap_append

theorem valid_new : Valid (new : State β) where
  inflight := by
    intro e he
    cases he
  nodup := nodup_nil
  ridInj := by
    intro q q' rid h
    cases h
  ridLt := by
    intro q rid h
    cases h
  once := nodup_nil
  settled := by
    intro q hq
    cases hq
  flags := by
    intro q h
    rcases h with h | h <;> cases h
  answered := by
    intro q outputs h
    cases h

section Completion

variable {s : State β} {q : Nat}

/-- The record of a request is completed, and its entry is not in flight any more. -/
theorem valid_complete (r : Request) (inflight : List Inflight) (events : List (Event β))
    (hvalid : Valid s) (hq : (s.requests q).settled = false)
    (hr : r.settled = true) (hrid : r.rid = (s.requests q).rid)
    (hsub : inflight.Sublist s.inflight) (hnot : ∀ e ∈ inflight, e.request ≠ q)
    (hevents : completed events = [q]) (hanswered : ∀ q outputs, .answered q outputs ∉ events) :
    Valid { s with
      requests := Function.update s.requests q r, inflight := inflight, log := s.log ++ events } := by
  have hrids : ∀ p, (Function.update s.requests q r p).rid = (s.requests p).rid := by
    intro p
    by_cases hp : p = q
    · subst hp
      rw [update_self, hrid]
    · rw [update_of_ne hp]
  refine ⟨?_, ?_, ?_, ?_, ?_, ?_, ?_, ?_⟩
  · intro e he
    dsimp only
    rw [update_of_ne (hnot e he)]
    exact hvalid.inflight e (hsub.subset he)
  · exact (hsub.map _).nodup hvalid.nodup
  · intro p p' rid hp hp'
    dsimp only at hp hp'
    rw [hrids] at hp hp'
    exact hvalid.ridInj p p' rid hp hp'
  · intro p rid hp
    dsimp only at hp
    rw [hrids] at hp
    exact hvalid.ridLt p rid hp
  · dsimp only
    rw [completed_append, hevents, perm_append_comm.nodup_iff, singleton_append, nodup_cons]
    refine ⟨fun hmem => ?_, hvalid.once⟩
    rw [hvalid.settled q hmem] at hq
    cases hq
  · intro p hp
    dsimp only
    by_cases hpq : p = q
    · subst hpq
      rw [update_self]
      exact hr
    · rw [update_of_ne hpq]
      apply hvalid.settled p
      simpa [completed_append, hevents, hpq] using hp
  · intro p hp
    dsimp only at hp ⊢
    by_cases hpq : p = q
    · subst hpq
      rw [update_self]
      exact hr
    · rw [update_of_ne hpq] at hp ⊢
      exact hvalid.flags p hp
  · intro p outputs hp
    dsimp only at hp ⊢
    have hold := (mem_append.mp hp).resolve_right (hanswered p outputs)
    have hresolved := hvalid.answered p outputs hold
    have hpq : p ≠ q := by
      rintro rfl
      rw [hvalid.flags p (.inr hresolved)] at hq
      cases hq
    rw [update_of_ne hpq]
    exact hresolved

end Completion

variable {e : Inflight}

theorem matched_mem {inflight : List Inflight} {rid : Option Nat}
    (h : matched inflight rid = some e) : e ∈ inflight := by
  unfold matched at h
  split at h
  · rename_i e' hfind
    cases h
    exact mem_of_find?_eq_some hfind
  · exact mem_of_mem_head? h

variable {s : State β}

theorem Valid.unsettled (hvalid : Valid s) (he : e ∈ s.inflight) :
    (s.requests e.request).settled = false := by
  unfold Request.settled
  rw [(hvalid.inflight e he).1]
  decide

theorem Valid.erase (hvalid : Valid s) (he : e ∈ s.inflight) :
    ∀ e' ∈ s.inflight.erase e, e'.request ≠ e.request := by
  have hperm := (perm_cons_erase he).map Inflight.request
  have hnodup := hperm.nodup_iff.mp hvalid.nodup
  rw [map_cons, nodup_cons] at hnodup
  intro e' he' heq
  exact hnodup.1 (heq ▸ mem_map_of_mem he')

theorem valid_onGenerateDone (hvalid : Valid s) (result : Result β) :
    Valid (onGenerateDone s result) := by
  unfold onGenerateDone
  split_ifs
  · split
    · exact hvalid
    · rename_i e hmatched
      have he := matched_mem hmatched
      split
      · have h := valid_complete { s.requests e.request with state := .error, event := true }
          (s.inflight.erase e) [.failed e.request] hvalid (hvalid.unsettled he) rfl rfl
          erase_sublist (hvalid.erase he) rfl (by simp)
        exact h
      · have h := valid_complete { s.requests e.request with state := .done, event := true }
          (s.inflight.erase e) [.done e.request result.rid] hvalid (hvalid.unsettled he) rfl rfl
          erase_sublist (hvalid.erase he) rfl (by simp)
        exact h
  · exact hvalid

/-- A request that is not completed fails. -/
def fail (s : State β) (e : Inflight) : State β :=
  { s with
    requests := Function.update s.requests e.request
      { s.requests e.request with state := .error, event := true }
    log := s.log ++ [.failed e.request] }

theorem foldl_failOne {P : State β → Prop}
    (hfail : ∀ s e, P s → s.inflight = [] → (s.requests e.request).settled = false → P (fail s e))
    (entries : List Inflight) (hs : P s) (hempty : s.inflight = [])
    (hnodup : (entries.map Inflight.request).Nodup)
    (hunsettled : ∀ e ∈ entries, (s.requests e.request).settled = false) :
    P (entries.foldl failOne s) := by
  induction entries generalizing s with
  | nil => exact hs
  | cons e entries ih =>
    rw [map_cons, nodup_cons] at hnodup
    have he := hunsettled e mem_cons_self
    have hone : failOne s e = fail s e := by
      simp only [failOne, he, Bool.false_eq_true, if_false]
      rfl
    rw [foldl_cons, hone]
    apply ih (hfail s e hs hempty he) hempty hnodup.2
    intro e' he'
    have hne : e'.request ≠ e.request := fun h => hnodup.1 (h ▸ mem_map_of_mem he')
    dsimp only [fail]
    rw [update_of_ne hne]
    exact hunsettled e' (mem_cons_of_mem _ he')

theorem valid_fail (hvalid : Valid s) (hempty : s.inflight = [])
    (he : (s.requests e.request).settled = false) : Valid (fail s e) :=
  valid_complete { s.requests e.request with state := .error, event := true } s.inflight
    [.failed e.request] hvalid he rfl rfl (List.Sublist.refl _) (by simp [hempty]) rfl (by simp)

theorem Valid.withoutInflight (hvalid : Valid s) : Valid { s with inflight := [] } :=
  ⟨by simp, by simp, hvalid.ridInj, hvalid.ridLt, hvalid.once, hvalid.settled, hvalid.flags,
    hvalid.answered⟩

theorem valid_failAllInflight (hvalid : Valid s) : Valid (failAllInflight s) :=
  foldl_failOne (fun _ _ hs hempty he => valid_fail hs hempty he) s.inflight
    hvalid.withoutInflight rfl hvalid.nodup fun _ he => hvalid.unsettled he

section Steps

variable {s s' : State β}

theorem unsettled_of_waiting {r : Request} (h : r.state = .waiting) : r.settled = false := by
  unfold Request.settled
  rw [h]
  decide

variable {q : Nat}

theorem Valid.waiting (hvalid : Valid s) (hq : (s.requests q).state = .waiting) :
    ∀ e ∈ s.inflight, e.request ≠ q := by
  rintro e he rfl
  rw [(hvalid.inflight e he).1] at hq
  cases hq

theorem valid_opFails (hvalid : Valid s) (h : step s (.opFails q) = some s') : Valid s' := by
  simp only [step] at h
  split_ifs at h with hq
  cases h
  exact valid_complete { s.requests q with state := .error, resolved := true } s.inflight
    [.failed q, .raised q] hvalid (unsettled_of_waiting hq.2) rfl rfl (List.Sublist.refl _)
    (hvalid.waiting hq.2) rfl (by simp)

theorem valid_sendFails (hvalid : Valid s) (h : step s (.sendFails q) = some s') : Valid s' := by
  simp only [step] at h
  split_ifs at h with hq
  cases h
  exact valid_complete { s.requests q with state := .error, event := true } s.inflight [.failed q]
    hvalid (unsettled_of_waiting hq.2.1) rfl rfl (List.Sublist.refl _) (hvalid.waiting hq.2.1) rfl
    (by simp)

theorem valid_send (hvalid : Valid s) (h : step s (.send q) = some s') : Valid s' := by
  simp only [step] at h
  split_ifs at h with hq
  cases h
  have hnot := hvalid.waiting hq.2.1
  have hunsettled := unsettled_of_waiting hq.2.1
  have hnotMem : q ∉ completed s.log := by
    intro hmem
    rw [hvalid.settled q hmem] at hunsettled
    cases hunsettled
  have hflags : ¬ ((s.requests q).event = true ∨ (s.requests q).resolved = true) := by
    intro hflag
    rw [hvalid.flags q hflag] at hunsettled
    cases hunsettled
  refine ⟨?_, ?_, ?_, ?_, hvalid.once, ?_, ?_, ?_⟩
  · intro e he
    dsimp only [State.setRequest]
    rcases mem_append.mp he with he | he
    · rw [update_of_ne (hnot e he)]
      exact hvalid.inflight e he
    · cases mem_singleton.mp he
      rw [update_self]
      exact ⟨rfl, rfl⟩
  · dsimp only [State.setRequest]
    rw [map_append, perm_append_comm.nodup_iff]
    refine nodup_cons.mpr ⟨fun hmem => ?_, hvalid.nodup⟩
    obtain ⟨e, he, heq⟩ := mem_map.mp hmem
    exact hnot e he heq
  · -- The id is larger than all the others.
    intro p p' rid hp hp'
    dsimp only [State.setRequest] at hp hp'
    by_cases hpq : p = q
    · subst hpq
      by_cases hpq' : p' = p
      · exact hpq'.symm
      · rw [update_self] at hp
        rw [update_of_ne hpq'] at hp'
        cases hp
        exact absurd (hvalid.ridLt p' _ hp') (Nat.lt_irrefl _)
    · rw [update_of_ne hpq] at hp
      by_cases hpq' : p' = q
      · subst hpq'
        rw [update_self] at hp'
        cases hp'
        exact absurd (hvalid.ridLt p _ hp) (Nat.lt_irrefl _)
      · rw [update_of_ne hpq'] at hp'
        exact hvalid.ridInj p p' rid hp hp'
  · intro p rid hp
    dsimp only [State.setRequest] at hp ⊢
    by_cases hpq : p = q
    · subst hpq
      rw [update_self] at hp
      cases hp
      exact Nat.lt_succ_self _
    · rw [update_of_ne hpq] at hp
      exact Nat.lt_succ_of_lt (hvalid.ridLt p rid hp)
  · intro p hp
    dsimp only [State.setRequest]
    have hpq : p ≠ q := fun heq => hnotMem (heq ▸ hp)
    rw [update_of_ne hpq]
    exact hvalid.settled p hp
  · intro p hp
    dsimp only [State.setRequest] at hp ⊢
    by_cases hpq : p = q
    · subst hpq
      rw [update_self] at hp
      exact absurd hp hflags
    · rw [update_of_ne hpq] at hp ⊢
      exact hvalid.flags p hp
  · intro p outputs hp
    dsimp only [State.setRequest]
    have hresolved := hvalid.answered p outputs hp
    have hpq : p ≠ q := by
      rintro rfl
      exact hflags (.inr hresolved)
    rw [update_of_ne hpq]
    exact hresolved

theorem state_resolve (s : State β) (q p : Nat) :
    (Function.update s.requests q { s.requests q with resolved := true } p).state =
        (s.requests p).state ∧
      (Function.update s.requests q { s.requests q with resolved := true } p).rid =
        (s.requests p).rid := by
  by_cases hp : p = q
  · subst hp
    simp
  · simp [update_of_ne hp]

/-- A future is resolved. -/
theorem valid_resolve (hvalid : Valid s) (hevent : (s.requests q).event = true)
    (results : Nat → Option (List β)) (outputs : List β) :
    Valid { s with
      requests := Function.update s.requests q { s.requests q with resolved := true }
      results := results
      log := s.log ++ [.answered q outputs] } := by
  have hsame := state_resolve s q
  have hsettled : ∀ p,
      (Function.update s.requests q { s.requests q with resolved := true } p).settled =
        (s.requests p).settled := by
    intro p
    unfold Request.settled
    rw [(hsame p).1]
  refine ⟨?_, hvalid.nodup, ?_, ?_, ?_, ?_, ?_, ?_⟩
  · intro e he
    dsimp only
    rw [(hsame _).1, (hsame _).2]
    exact hvalid.inflight e he
  · intro p p' rid hp hp'
    dsimp only at hp hp'
    rw [(hsame _).2] at hp hp'
    exact hvalid.ridInj p p' rid hp hp'
  · intro p rid hp
    dsimp only at hp
    rw [(hsame _).2] at hp
    exact hvalid.ridLt p rid hp
  · simpa [completed_append, completed] using hvalid.once
  · intro p hp
    dsimp only at hp ⊢
    rw [hsettled]
    apply hvalid.settled p
    simpa [completed_append, completed] using hp
  · intro p hp
    dsimp only at hp ⊢
    rw [hsettled]
    by_cases hpq : p = q
    · subst hpq
      exact hvalid.flags p (.inl hevent)
    · rw [update_of_ne hpq] at hp
      exact hvalid.flags p hp
  · intro p outputs' hp
    dsimp only at hp ⊢
    by_cases hpq : p = q
    · subst hpq
      rw [update_self]
    · rw [update_of_ne hpq]
      rcases mem_append.mp hp with hp | hp
      · exact hvalid.answered p outputs' hp
      · cases mem_singleton.mp hp
        exact absurd rfl hpq

theorem valid_step (hvalid : Valid s) (a : Act β) (h : step s a = some s') : Valid s' := by
  cases a with
  | submit =>
    cases h
    exact ⟨hvalid.inflight, hvalid.nodup, hvalid.ridInj, hvalid.ridLt, hvalid.once, hvalid.settled,
      hvalid.flags, hvalid.answered⟩
  | opFails q => exact valid_opFails hvalid h
  | send q => exact valid_send hvalid h
  | sendFails q => exact valid_sendFails hvalid h
  | apply result =>
    simp only [step] at h
    split at h
    · cases h
    · split at h
      · cases h
        exact ⟨hvalid.inflight, hvalid.nodup, hvalid.ridInj, hvalid.ridLt, hvalid.once,
          hvalid.settled, hvalid.flags, hvalid.answered⟩
      · cases h
        exact ⟨hvalid.inflight, hvalid.nodup, hvalid.ridInj, hvalid.ridLt, hvalid.once,
          hvalid.settled, hvalid.flags, hvalid.answered⟩
  | listen =>
    simp only [step] at h
    split at h
    · cases h
    · rename_i result _
      cases h
      have hdone := valid_onGenerateDone hvalid result
      exact ⟨hdone.inflight, hdone.nodup, hdone.ridInj, hdone.ridLt, hdone.once, hdone.settled,
        hdone.flags, hdone.answered⟩
  | failAll =>
    cases h
    exact valid_failAllInflight hvalid
  | collect q =>
    simp only [step] at h
    split_ifs at h with hevent
    split at h
    · cases h
      exact valid_resolve hvalid hevent.1 _ _
    · cases h
      exact valid_resolve hvalid hevent.1 s.results _
  | setLive live =>
    cases h
    exact ⟨hvalid.inflight, hvalid.nodup, hvalid.ridInj, hvalid.ridLt, hvalid.once, hvalid.settled,
      hvalid.flags, hvalid.answered⟩

end Steps

/-! ## Runs -/

/-- What holds besides in a run of guarded steps. -/
structure Kept (s : State β) : Prop extends OwnAnswers s where
  valid : Valid s
  /-- The outputs of a request that is done are there until its future is resolved. -/
  stored : ∀ q, (s.requests q).state = .done → ∃ rid, (s.requests q).rid = some rid ∧
    ((s.requests q).resolved = false →
      ∃ outputs, s.results rid = some outputs ∧ (rid, outputs) ∈ s.produced)
  /-- The outputs of the result in hand are there unless its request is done. -/
  handled : ∀ result ∈ s.handling, ∀ rid outputs, result.rid = some rid →
    result.outputs = some outputs → (∀ q, (s.requests q).rid = some rid → (s.requests q).state ≠ .done) →
    s.results rid = some outputs ∧ (rid, outputs) ∈ s.produced

theorem kept_new : Kept (new : State β) where
  own := by
    intro q byRid h
    cases h
  outputs := by
    intro q outputs h
    cases h
  valid := valid_new
  stored := by
    intro q h
    cases h
  handled := by
    intro result h
    cases h

section Kept

variable {s s' : State β}

theorem ne_done_of_unsettled {r : Request} (h : r.settled = false) : r.state ≠ .done := by
  rintro hdone
  unfold Request.settled at h
  rw [hdone] at h
  revert h
  decide

theorem Valid.ne_of_done (hvalid : Valid s) {p q : Nat} {byRid : Option Nat}
    (hp : .done p byRid ∈ s.log) (hq : (s.requests q).settled = false) : p ≠ q := by
  rintro rfl
  have hmem : p ∈ completed s.log := mem_filterMap.mpr ⟨_, hp, rfl⟩
  rw [hvalid.settled p hmem] at hq
  cases hq

theorem Valid.ne_of_answered (hvalid : Valid s) {p q : Nat} {outputs : List β}
    (hp : .answered p outputs ∈ s.log) (hq : (s.requests q).settled = false) : p ≠ q := by
  rintro rfl
  rw [hvalid.flags p (.inr (hvalid.answered p outputs hp))] at hq
  cases hq

/-- A step that changes one request, which was not completed and is not done, keeps the answers. -/
theorem kept_frame (hkept : Kept s) (hvalid : Valid s') (q : Nat) (r : Request)
    (hq : (s.requests q).settled = false) (hr : r.state ≠ .done)
    (hrequests : s'.requests = Function.update s.requests q r) (hresults : s'.results = s.results)
    (hproduced : s'.produced = s.produced) (hhandling : ∀ x ∈ s'.handling, x ∈ s.handling)
    (hdone : ∀ p byRid, .done p byRid ∈ s'.log → .done p byRid ∈ s.log)
    (hanswered : ∀ p outputs, .answered p outputs ∈ s'.log → .answered p outputs ∈ s.log) :
    Kept s' where
  valid := hvalid
  own := by
    intro p byRid hp
    have hold := hdone p byRid hp
    rw [hrequests, update_of_ne (hkept.valid.ne_of_done hold hq)]
    exact hkept.own p byRid hold
  outputs := by
    intro p outputs hp hstate
    have hold := hanswered p outputs hp
    rw [hrequests, update_of_ne (hkept.valid.ne_of_answered hold hq)] at hstate ⊢
    rw [hproduced]
    exact hkept.outputs p outputs hold hstate
  stored := by
    intro p hstate
    have hpq : p ≠ q := by
      rintro rfl
      rw [hrequests, update_self] at hstate
      exact hr hstate
    rw [hrequests, update_of_ne hpq] at hstate ⊢
    rw [hresults, hproduced]
    exact hkept.stored p hstate
  handled := by
    intro result hresult rid outputs hrid houtputs hnone
    rw [hresults, hproduced]
    apply hkept.handled result (hhandling result hresult) rid outputs hrid houtputs
    intro p hp
    by_cases hpq : p = q
    · rw [hpq]
      exact ne_done_of_unsettled hq
    · have := hnone p
      rw [hrequests, update_of_ne hpq] at this
      exact this hp

variable {q : Nat}

theorem kept_opFails (hkept : Kept s) (h : step s (.opFails q) = some s') : Kept s' := by
  have hvalid := valid_step hkept.valid _ h
  simp only [step] at h
  split_ifs at h with hq
  cases h
  exact kept_frame hkept hvalid q { s.requests q with state := .error, resolved := true }
    (unsettled_of_waiting hq.2) (by simp) rfl rfl rfl (fun _ hx => hx) (by simp) (by simp)

theorem kept_sendFails (hkept : Kept s) (h : step s (.sendFails q) = some s') : Kept s' := by
  have hvalid := valid_step hkept.valid _ h
  simp only [step] at h
  split_ifs at h with hq
  cases h
  exact kept_frame hkept hvalid q { s.requests q with state := .error, event := true }
    (unsettled_of_waiting hq.2.1) (by simp) rfl rfl rfl (fun _ hx => hx) (by simp) (by simp)

theorem kept_send (hkept : Kept s) (h : step s (.send q) = some s') : Kept s' := by
  have hvalid := valid_step hkept.valid _ h
  simp only [step] at h
  split_ifs at h with hq
  cases h
  exact kept_frame hkept hvalid q { s.requests q with state := .generating, rid := some s.nextRid }
    (unsettled_of_waiting hq.2.1) (by simp) rfl rfl rfl (fun _ hx => hx) (fun _ _ hp => hp)
    (fun _ _ hp => hp)

theorem kept_apply (hkept : Kept s) {result : Result β} (h : step s (.apply result) = some s') :
    Kept s' := by
  have hvalid := valid_step hkept.valid _ h
  simp only [step] at h
  split at h
  · cases h
  · split at h
    · rename_i rid outputs hrid houtputs
      cases h
      refine ⟨⟨hkept.own, ?_⟩, hvalid, ?_, ?_⟩
      · intro p out hp hstate
        obtain ⟨rid', hrid', hmem⟩ := hkept.outputs p out hp hstate
        exact ⟨rid', hrid', mem_cons_of_mem _ hmem⟩
      · intro p hstate
        obtain ⟨rid', hrid', hstored⟩ := hkept.stored p hstate
        refine ⟨rid', hrid', fun hresolved => ?_⟩
        by_cases hsame : rid' = rid
        · exact ⟨outputs, by simp [hsame], by simp [hsame]⟩
        · obtain ⟨out, hout, hmem⟩ := hstored hresolved
          exact ⟨out, by simp [update_of_ne hsame, hout], mem_cons_of_mem _ hmem⟩
      · intro x hx rid' out hx₁ hx₂ _
        cases hx
        rw [hrid] at hx₁
        rw [houtputs] at hx₂
        cases hx₁
        cases hx₂
        exact ⟨by simp, mem_cons_self⟩
    · rename_i hremains
      cases h
      refine ⟨⟨hkept.own, hkept.outputs⟩, hvalid, hkept.stored, ?_⟩
      intro x hx rid' out hx₁ hx₂ _
      cases hx
      exact absurd hx₂ (hremains rid' out hx₁)

theorem matched_rid {inflight : List Inflight} {rid : Option Nat} {e : Inflight}
    (h : matched inflight rid = some e) (hin : ∃ e ∈ inflight, some e.rid = rid) :
    some e.rid = rid := by
  unfold matched at h
  split at h
  · rename_i e' hfind
    cases h
    simpa using find?_some hfind
  · rename_i hfind
    obtain ⟨e', he', hrid⟩ := hin
    exact absurd hrid (by simpa using find?_eq_none.mp hfind e' he')

theorem kept_done (hkept : Kept s) {result : Result β} {e : Inflight} {out : List β}
    (hhandling : s.handling = some result) (he : e ∈ s.inflight) (hrid : some e.rid = result.rid)
    (hout : result.outputs = some out) (hvalid : Valid s')
    (hrequests : s'.requests = Function.update s.requests e.request
      { s.requests e.request with state := .done, event := true })
    (hresults : s'.results = s.results) (hproduced : s'.produced = s.produced)
    (hempty : s'.handling = none) (hlog : s'.log = s.log ++ [.done e.request result.rid]) :
    Kept s' := by
  obtain ⟨hgenerating, hown⟩ := hkept.valid.inflight e he
  have hunsettled := hkept.valid.unsettled he
  -- No request with this id is done yet, so the outputs are there.
  have hstored := hkept.handled result hhandling e.rid out hrid.symm hout (by
    intro p hp hdone
    have := hkept.valid.ridInj p e.request e.rid hp hown
    rw [this, hgenerating] at hdone
    cases hdone)
  refine ⟨⟨?_, ?_⟩, hvalid, ?_, ?_⟩
  · intro p byRid hp
    rw [hlog] at hp
    rw [hrequests]
    rcases mem_append.mp hp with hp | hp
    · rw [update_of_ne (hkept.valid.ne_of_done hp hunsettled)]
      exact hkept.own p byRid hp
    · cases mem_singleton.mp hp
      rw [update_self, ← hrid]
      exact ⟨by simp, hown.symm⟩
  · intro p outputs hp hstate
    rw [hlog] at hp
    have hold : .answered p outputs ∈ s.log := by simpa using hp
    rw [hrequests, update_of_ne (hkept.valid.ne_of_answered hold hunsettled)] at hstate ⊢
    rw [hproduced]
    exact hkept.outputs p outputs hold hstate
  · intro p hstate
    rw [hresults, hproduced]
    by_cases hpq : p = e.request
    · subst hpq
      rw [hrequests, update_self]
      exact ⟨e.rid, hown, fun _ => ⟨out, hstored⟩⟩
    · rw [hrequests, update_of_ne hpq] at hstate ⊢
      exact hkept.stored p hstate
  · intro x hx
    rw [hempty] at hx
    cases hx

theorem kept_listen (hkept : Kept s) (hok : Guarded s .listen) (h : step s .listen = some s') :
    Kept s' := by
  have hvalid := valid_step hkept.valid _ h
  simp only [step] at h
  split at h
  · cases h
  rename_i result hhandling
  have hunchanged : Kept { s with handling := none } :=
    ⟨⟨hkept.own, hkept.outputs⟩,
      ⟨hkept.valid.inflight, hkept.valid.nodup, hkept.valid.ridInj, hkept.valid.ridLt,
        hkept.valid.once, hkept.valid.settled, hkept.valid.flags, hkept.valid.answered⟩,
      hkept.stored, fun _ hx => by cases hx⟩
  cases h
  unfold onGenerateDone at hvalid ⊢
  by_cases hlive : s.live = true
  · rw [if_pos hlive] at hvalid ⊢
    cases hmatched : matched s.inflight result.rid with
    | none => exact hunchanged
    | some e =>
      have he := matched_mem hmatched
      simp only [hmatched] at hvalid
      dsimp only
      cases hout : result.outputs with
      | none =>
        simp only [hout] at hvalid
        exact kept_frame hkept hvalid e.request
          { s.requests e.request with state := .error, event := true } (hkept.valid.unsettled he)
          (by simp) rfl rfl rfl (by simp) (by simp) (by simp)
      | some out =>
        simp only [hout] at hvalid
        have hin := (hok result hhandling (by simp [hout])).resolve_left (ne_nil_of_mem he)
        exact kept_done hkept hhandling he (matched_rid hmatched hin) hout hvalid rfl rfl rfl rfl rfl
  · rw [if_neg hlive] at hvalid ⊢
    exact hunchanged

theorem kept_failAll (hkept : Kept s) : Kept (failAllInflight s) := by
  have hfail : ∀ (s : State β) (e : Inflight), Kept s → s.inflight = [] →
      (s.requests e.request).settled = false → Kept (fail s e) := by
    intro s e hs hempty he
    exact kept_frame hs (valid_fail hs.valid hempty he) e.request
      { s.requests e.request with state := .error, event := true } he (by simp) rfl rfl rfl
      (fun _ hx => hx) (by simp [fail]) (by simp [fail])
  have hstart : Kept { s with inflight := [] } :=
    ⟨⟨hkept.own, hkept.outputs⟩, hkept.valid.withoutInflight, hkept.stored, hkept.handled⟩
  exact foldl_failOne hfail s.inflight hstart rfl hkept.valid.nodup
    fun _ he => hkept.valid.unsettled he

theorem OwnAnswers.answered (hs : OwnAnswers s) {answer : List β}
    (hsame : ∀ p, (s'.requests p).state = (s.requests p).state ∧
      (s'.requests p).rid = (s.requests p).rid)
    (hproduced : s'.produced = s.produced) (hlog : s'.log = s.log ++ [.answered q answer])
    (hanswer : (s.requests q).state = .done →
      ∃ rid, (s.requests q).rid = some rid ∧ (rid, answer) ∈ s.produced) : OwnAnswers s' where
  own := by
    intro p byRid hp
    rw [(hsame p).2]
    exact hs.own p byRid (by simpa [hlog] using hp)
  outputs := by
    intro p outputs hp hdone
    rw [(hsame p).1] at hdone
    rw [(hsame p).2, hproduced]
    rcases mem_append.mp (hlog ▸ hp) with hp | hp
    · exact hs.outputs p outputs hp hdone
    · cases mem_singleton.mp hp
      exact hanswer hdone

theorem kept_collect (hkept : Kept s) (h : step s (.collect q) = some s') : Kept s' := by
  have hvalid := valid_step hkept.valid _ h
  have hsame := state_resolve s q
  simp only [step] at h
  split_ifs at h with hevent
  split at h
  · rename_i rid hstate hrid
    cases h
    obtain ⟨rid', hrid', hstored⟩ := hkept.stored q hstate
    rw [hrid] at hrid'
    cases hrid'
    obtain ⟨out, hout, hmem⟩ := hstored (by simpa using hevent.2)
    refine ⟨hkept.toOwnAnswers.answered hsame rfl rfl fun _ => ⟨rid, hrid, by simpa [hout] using hmem⟩,
      hvalid, ?_, ?_⟩
    · intro p hdone
      dsimp only [State.setRequest] at hdone ⊢
      rw [(hsame p).1] at hdone
      rw [(hsame p).2]
      obtain ⟨rid', hrid', hstored'⟩ := hkept.stored p hdone
      refine ⟨rid', hrid', fun hresolved => ?_⟩
      have hpq : p ≠ q := by
        rintro rfl
        rw [update_self] at hresolved
        cases hresolved
      rw [update_of_ne hpq] at hresolved
      have hne : rid' ≠ rid := by
        rintro rfl
        exact hpq (hkept.valid.ridInj p q rid' hrid' hrid)
      rw [update_of_ne hne]
      exact hstored' hresolved
    · intro result hresult rid' out' hrid' hout' hnone
      dsimp only [State.setRequest] at hnone ⊢
      have hne : rid' ≠ rid := by
        rintro rfl
        have := hnone q
        rw [(hsame q).1, (hsame q).2] at this
        exact this hrid hstate
      rw [update_of_ne hne]
      apply hkept.handled result hresult rid' out' hrid' hout'
      intro p hp
      have := hnone p
      rw [(hsame p).1, (hsame p).2] at this
      exact this hp
  · rename_i hremains
    cases h
    refine ⟨hkept.toOwnAnswers.answered hsame rfl rfl fun hdone => ?_, hvalid, ?_, ?_⟩
    · obtain ⟨rid, hrid, -⟩ := hkept.stored q hdone
      exact absurd hrid (hremains rid hdone)
    · intro p hdone
      dsimp only [State.setRequest] at hdone ⊢
      rw [(hsame p).1] at hdone
      rw [(hsame p).2]
      obtain ⟨rid', hrid', hstored'⟩ := hkept.stored p hdone
      have hpq : p ≠ q := by
        rintro rfl
        exact hremains rid' hdone hrid'
      rw [update_of_ne hpq]
      exact ⟨rid', hrid', hstored'⟩
    · intro result hresult rid' out' hrid' hout' hnone
      dsimp only [State.setRequest] at hnone ⊢
      apply hkept.handled result hresult rid' out' hrid' hout'
      intro p hp
      have := hnone p
      rw [(hsame p).1, (hsame p).2] at this
      exact this hp

theorem kept_step (hkept : Kept s) {a : Act β} (hok : Guarded s a) (h : step s a = some s') :
    Kept s' := by
  have hvalid := valid_step hkept.valid _ h
  cases a with
  | submit =>
    cases h
    exact ⟨⟨hkept.own, hkept.outputs⟩, hvalid, hkept.stored, hkept.handled⟩
  | opFails q => exact kept_opFails hkept h
  | send q => exact kept_send hkept h
  | sendFails q => exact kept_sendFails hkept h
  | apply result => exact kept_apply hkept h
  | listen => exact kept_listen hkept hok h
  | failAll =>
    cases h
    exact kept_failAll hkept
  | collect q => exact kept_collect hkept h
  | setLive live =>
    cases h
    exact ⟨⟨hkept.own, hkept.outputs⟩, hvalid, hkept.stored, hkept.handled⟩

end Kept

/-- In every run a record is completed at most once.  In a run of guarded steps it is completed as
done by the result with its own id only, and its caller gets the outputs of that result. -/
theorem generates_get_own_answers (β : Type) :
    (∀ s : State β, Reaches step Always new s → (completed s.log).Nodup) ∧
      ∀ s : State β, Reaches step Guarded new s → OwnAnswers s := by
  constructor
  · intro s hs
    have hvalid : Valid s := hs.invariant valid_new fun _ a _ hvalid _ h => valid_step hvalid a h
    exact hvalid.once
  · intro s hs
    have hkept : Kept s := hs.invariant kept_new fun _ _ _ hkept hok h => kept_step hkept hok h
    exact hkept.toOwnAnswers

/-- Results in another order, and a late one of a request that has failed. -/
theorem generates_get_own_answers_late :
    ∃ s : State Nat, Reaches step Guarded new s ∧
      s.log = [.done 1 (some 1), .answered 1 [7], .failed 0, .answered 0 []] ∧
      (completed s.log).Nodup ∧ OwnAnswers s := by
  have hrun : ∃ s : State Nat, Reaches step Guarded new s ∧
      s.log = [.done 1 (some 1), .answered 1 [7], .failed 0, .answered 0 []] := by
    apply exists_reaches [.submit, .submit, .send 0, .send 1, .apply ⟨some 1, some [7]⟩, .listen,
      .collect 1, .failAll, .apply ⟨some 0, some [5]⟩, .listen, .collect 0]
    decide
  obtain ⟨s, hs, hlog⟩ := hrun
  exact ⟨s, hs, hlog, (generates_get_own_answers Nat).1 s hs.always,
    (generates_get_own_answers Nat).2 s hs⟩

/-- The late result of a request that has failed completes a newer one, whose caller gets an empty
answer. -/
theorem late_result_completes_newer :
    ∃ s : State Nat, Reaches step Always new s ∧
      s.log = [.failed 0, .done 1 (some 0), .answered 1 []] ∧ ¬ OwnAnswers s := by
  have hrun : ∃ s : State Nat, Reaches step Always new s ∧
      s.log = [.failed 0, .done 1 (some 0), .answered 1 []] ∧ (s.requests 1).rid = some 1 := by
    apply exists_reaches [.submit, .submit, .send 0, .failAll, .send 1,
      .apply ⟨some 0, some [5]⟩, .listen, .collect 1]
    decide
  obtain ⟨s, hs, hlog, hrid⟩ := hrun
  refine ⟨s, hs, hlog, fun hanswers => ?_⟩
  have hown := (hanswers.own 1 (some 0) (by rw [hlog]; simp)).2
  rw [hrid] at hown
  cases hown

end ArcticPlatform.SemiPersistence.Generates
