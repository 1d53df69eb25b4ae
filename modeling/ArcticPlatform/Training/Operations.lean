import ArcticPlatform.Library.Runs
import Mathlib.Logic.Function.Basic

/-!
# Operations on the training workers

An embedding of the lock and the failure latch of `ArcticRLRayServer` in
`common/ray_server.py`.  An operation is a request that takes `_training_op_lock`, and under it
submits references to the training workers and awaits them, once or several times.  A step is what
one task of the event loop does between two awaits, or one reference that finishes on a worker.

Main results:

- Theorem `training_ops_exclusive`: one operation at a time has references in flight, and one
  that ends without them has set the latch, in every run whose steps meet `Guarded`; a save
  submits in those states only in which the latch is not set.
-/

namespace ArcticPlatform.Training

open Runs Function

/-- How references are awaited. -/
inductive Await where
  /-- `_await_training_refs` in the task of the request -/
  | helper
  /-- `_await_training_refs` in a task of its own, beside the one that receives -/
  | child
  /-- `asyncio.gather` of calls of `ray.get`, as the colocated weight syncs do -/
  | plain
  /-- `_await_training_refs` of one reference, to a call of the state actor that gathers the
  references of the workers: the call raises the first error and leaves the others running. -/
  | actor
  deriving DecidableEq

/-- One round of references: whether the latch is checked before they are submitted, and how they
are awaited. -/
structure Round where
  checkFailed : Bool
  awaits : Await
  /-- The round sets `weight_sync_ready`. -/
  setsReady : Bool
  deriving DecidableEq

/-- A request. -/
inductive Kind where
  | forwardBackward
  | forward
  | step
  | loadCheckpoint
  | save (prune : Bool)
  | emptyTrainingCache
  | syncWeightsNccl
  /-- A colocated weight sync, with the number of its rounds. -/
  | syncWeightsColocated (rounds : Nat)
  deriving DecidableEq

/-- A round of `_await_training_refs` with its defaults. -/
def awaitTrainingRefs : Round := ⟨true, .helper, false⟩

/-- The rounds of a request. -/
def Kind.rounds (ready : Bool) : Kind → List Round
  | .forwardBackward | .forward | .step | .loadCheckpoint => [awaitTrainingRefs]
  | .emptyTrainingCache => [⟨true, .actor, false⟩]
  | .save prune => awaitTrainingRefs :: if prune then [awaitTrainingRefs] else []
  | .syncWeightsNccl =>
    awaitTrainingRefs ::
      ((if ready then [] else [awaitTrainingRefs, ⟨true, .helper, true⟩]) ++ [⟨false, .child, false⟩])
  | .syncWeightsColocated n => List.replicate n ⟨false, .plain, false⟩

/-- The request is one of `_gather_training_refs`, which checks the latch before the lock too. -/
def Kind.gathers : Kind → Bool
  | .forwardBackward | .forward | .step | .loadCheckpoint => true
  | _ => false

/-- The request checks the latch as soon as it has the lock. -/
def Kind.checksInLock : Kind → Bool
  | .save _ | .emptyTrainingCache => false
  | _ => true

/-- Where an operation is. -/
inductive Stage where
  /-- In `_training_op_lock.acquire()` -/
  | waiting
  /-- It has the lock and is about to do its next round, or awaits something else. -/
  | holding (rest : List Round)
  /-- It awaits the references of a round; whether one has failed, and whether the task of its own
  has finished. -/
  | awaiting (round : Round) (rest : List Round) (errored settled : Bool)
  | ended
  deriving DecidableEq

/-- The server; an operation is named by a number. -/
structure Server where
  /-- `_training_op_lock` -/
  lock : Option Nat
  /-- `_training_failed` -/
  failed : Bool
  /-- `weight_sync_ready` -/
  ready : Bool
  kind : Nat → Kind
  stage : Nat → Option Stage
  /-- The references of an operation that have not finished on the workers. -/
  unfinished : Nat → Nat
  /-- Operations whose task for the references is cancelled and has not run since. -/
  cancelling : List Nat

def new : Server := ⟨none, false, false, fun _ => .step, fun _ => none, fun _ => 0, []⟩

def Server.setStage (s : Server) (op : Nat) (stage : Stage) : Server :=
  { s with stage := Function.update s.stage op (some stage) }

/-- An operation that has the lock returns or raises. -/
def Server.leave (s : Server) (op : Nat) : Server := { s.setStage op .ended with lock := none }

/-- `_mark_training_failed`. -/
def Server.markTrainingFailed (s : Server) : Server := { s with failed := true }

/-- What happens next. -/
inductive Act where
  /-- A request arrives. -/
  | arrive (op : Nat) (kind : Kind)
  | acquire (op : Nat)
  /-- The next round submits references; whether one of them is not awaitable. -/
  | submit (op refs : Nat) (rejected : Bool)
  /-- A reference finishes on its worker. -/
  | finishRef (op : Nat) (error : Bool)
  /-- The task that awaits references runs again. -/
  | resume (op : Nat)
  /-- The receiving side of a weight sync fails. -/
  | samplingFails (op : Nat)
  /-- The last round is over. -/
  | finish (op : Nat)
  /-- The client is gone. -/
  | cancel (op : Nat)
  /-- A cancelled task for the references runs. -/
  | childCancelled (op : Nat)

/-- The end of a round that has no error. -/
def Server.nextRound (s : Server) (op : Nat) (round : Round) (rest : List Round) : Server :=
  { s.setStage op (.holding rest) with ready := s.ready || round.setsReady }

/-- The task that awaits the references of a round runs again. -/
def resume (s : Server) (op : Nat) (round : Round) (rest : List Round) (errored settled : Bool) :
    Option Server :=
  match round.awaits with
  | .helper =>
    if errored then
      if s.unfinished op > 0 then some (s.markTrainingFailed.leave op) else some (s.leave op)
    else if s.unfinished op = 0 then some (s.nextRound op round rest)
    else none
  | .plain | .actor =>
    if errored then some (s.leave op)
    else if s.unfinished op = 0 then some (s.nextRound op round rest)
    else none
  | .child =>
    if settled then
      if errored then some (s.leave op) else some (s.nextRound op round rest)
    else if errored then
      if s.unfinished op > 0 then
        some (s.markTrainingFailed.setStage op (.awaiting round rest errored true))
      else some (s.setStage op (.awaiting round rest errored true))
    else if s.unfinished op = 0 then some (s.setStage op (.awaiting round rest errored true))
    else none

/-- An operation is cancelled while it awaits references. -/
def cancelAwaiting (s : Server) (op : Nat) (round : Round) (settled : Bool) : Server :=
  match round.awaits with
  | .helper | .actor => s.markTrainingFailed.leave op
  | .plain => s.leave op
  | .child => if settled then s.leave op else { s.leave op with cancelling := op :: s.cancelling }

/-- One step, if it is possible. -/
def step (s : Server) : Act → Option Server
  | .arrive op kind =>
    match s.stage op with
    | some _ => none
    | none =>
      let s := { s with kind := Function.update s.kind op kind }
      if kind.gathers ∧ s.failed then some (s.setStage op .ended) else some (s.setStage op .waiting)
  | .acquire op =>
    match s.lock, s.stage op with
    | none, some .waiting =>
      if (s.kind op).checksInLock ∧ s.failed then some (s.setStage op .ended)
      else some { s.setStage op (.holding ((s.kind op).rounds s.ready)) with lock := some op }
    | _, _ => none
  | .submit op refs rejected =>
    match s.stage op with
    | some (.holding (round :: rest)) =>
      if round.checkFailed ∧ s.failed then some (s.leave op)
      else
        let s := { s with unfinished := Function.update s.unfinished op refs }
        if rejected ∧ round.awaits ≠ .plain then some (s.leave op)
        else some (s.setStage op (.awaiting round rest false false))
    | _ => none
  | .finishRef op error =>
    if s.unfinished op > 0 then
      let s := { s with unfinished := Function.update s.unfinished op (s.unfinished op - 1) }
      match s.stage op with
      | some (.awaiting round rest errored settled) =>
        some (s.setStage op (.awaiting round rest (errored || error) settled))
      | _ => some s
    else none
  | .resume op =>
    match s.stage op with
    | some (.awaiting round rest errored settled) => resume s op round rest errored settled
    | _ => none
  | .samplingFails op =>
    match s.stage op with
    | some (.awaiting ⟨_, .child, _⟩ _ _ settled) =>
      if settled then some (s.leave op) else some (s.markTrainingFailed.leave op)
    | _ => none
  | .finish op =>
    match s.stage op with
    | some (.holding []) => some (s.leave op)
    | _ => none
  | .cancel op =>
    match s.stage op with
    | some .waiting => some (s.setStage op .ended)
    | some (.holding _) => some (s.leave op)
    | some (.awaiting round _ _ settled) => some (cancelAwaiting s op round settled)
    | _ => none
  | .childCancelled op =>
    if op ∈ s.cancelling then
      some { s.markTrainingFailed with cancelling := s.cancelling.erase op }
    else none

/-! ## What the lock and the latch promise -/

/-- A step puts references of an operation in flight. -/
def Submits (s : Server) (op refs : Nat) (rejected : Bool) : Prop :=
  ∃ s', step s (.submit op refs rejected) = some s' ∧ s'.unfinished op = refs

/-- Operations do not overlap, and a failure stays. -/
structure Exclusive (s : Server) : Prop where
  /-- One operation has references in flight. -/
  single : ∀ op op', s.unfinished op > 0 → s.unfinished op' > 0 → op = op'
  /-- One that has ended with references in flight has set the latch. -/
  latched : ∀ op, s.stage op = some .ended → s.unfinished op > 0 → s.failed = true
  /-- Once the latch is set nothing is submitted by a forward, a step, a load or a weight sync. -/
  refused : s.failed = true → ∀ op refs rejected, (s.kind op).checksInLock = true → refs > 0 →
    ¬ Submits s op refs rejected

/-- A save that has the lock can submit. -/
def SaveSubmits (s : Server) : Prop :=
  ∀ op prune refs round rest, s.kind op = .save prune → s.stage op = some (.holding (round :: rest)) →
    refs > 0 → Submits s op refs false

/-- No reference runs when the gather of a colocated weight sync or of the state actor fails. -/
def resumeGuard : Option Stage → Nat → Bool
  | some (.awaiting ⟨_, .plain, _⟩ _ true _), unfinished
  | some (.awaiting ⟨_, .actor, _⟩ _ true _), unfinished => unfinished = 0
  | _, _ => true

/-- No reference runs when a colocated weight sync is cancelled, and no weight sync is cancelled
while it sends. -/
def cancelGuard : Option Stage → Nat → Bool
  | some (.awaiting ⟨_, .plain, _⟩ _ _ _), unfinished => unfinished = 0
  | some (.awaiting ⟨_, .child, _⟩ _ _ settled), _ => settled
  | _, _ => true

/-- The steps that the lock and the latch are made for; the references that are submitted are
awaitable. -/
def Guarded (s : Server) : Act → Prop
  | .submit _ _ rejected => rejected = false
  | .resume op => resumeGuard (s.stage op) (s.unfinished op) = true
  | .cancel op => cancelGuard (s.stage op) (s.unfinished op) = true
  | _ => True

instance (s : Server) (a : Act) : Decidable (Guarded s a) :=
  match a with
  | .submit _ _ _ | .resume _ | .cancel _ => inferInstanceAs (Decidable (_ = _))
  | .arrive _ _ | .acquire _ | .finishRef _ _ | .samplingFails _ | .finish _ | .childCancelled _ =>
    inferInstanceAs (Decidable True)

/-! ## One operation -/

/-- The rounds of a save check the latch. -/
def SaveRounds (kind : Kind) (rest : List Round) : Prop :=
  ∀ prune, kind = .save prune → ∀ round ∈ rest, round = awaitTrainingRefs

/-- What holds of an operation in every run. -/
def OpValid (kind : Kind) (stage : Option Stage) (unfinished : Nat) : Prop :=
  match stage with
  | none | some .waiting => unfinished = 0
  | some (.holding rest) => unfinished = 0 ∧ SaveRounds kind rest
  | some (.awaiting _ rest errored settled) =>
    (settled = true → errored = false → unfinished = 0) ∧ SaveRounds kind rest
  | some .ended => True

def Valid (s : Server) : Prop := ∀ op, OpValid (s.kind op) (s.stage op) (s.unfinished op)

theorem saveRounds_rounds (kind : Kind) (ready : Bool) : SaveRounds kind (kind.rounds ready) := by
  rintro prune rfl round hround
  cases prune <;> simpa [Kind.rounds] using hround

theorem valid_new : Valid new := fun _ => rfl

/-- A step that changes one operation. -/
structure Changes (s s' : Server) (op : Nat) (stage : Stage) : Prop where
  kind : ∀ p, p ≠ op → s'.kind p = s.kind p
  stage_eq : s'.stage = Function.update s.stage op (some stage)
  unfinished : ∀ p, p ≠ op → s'.unfinished p = s.unfinished p

section Steps

variable {s s' : Server} {op : Nat} {stage : Stage}

theorem Changes.self (h : Changes s s' op stage) : s'.stage op = some stage := by
  rw [h.stage_eq, update_self]

theorem Changes.other (h : Changes s s' op stage) {p : Nat} (hp : p ≠ op) :
    s'.stage p = s.stage p := by
  rw [h.stage_eq, update_of_ne hp]

theorem Valid.change (hvalid : Valid s) (op : Nat) (stage : Stage) (h : Changes s s' op stage)
    (hop : OpValid (s'.kind op) (some stage) (s'.unfinished op)) : Valid s' := by
  intro p
  by_cases hp : p = op
  · subst hp
    rw [h.self]
    exact hop
  · rw [h.kind p hp, h.other hp, h.unfinished p hp]
    exact hvalid p

/-- An operation that leaves may set the latch or add to the cancelled ones. -/
theorem Valid.leave (hvalid : Valid s) (op : Nat) (latch : Bool) (cancelling : List Nat) :
    Valid { ({ s with failed := latch } : Server).leave op with cancelling } :=
  hvalid.change op .ended ⟨fun _ _ => rfl, rfl, fun _ _ => rfl⟩ trivial

theorem resume_cases {round : Round} {rest : List Round} {errored settled : Bool}
    (h : resume s op round rest errored settled = some s') :
    (∃ latch, s' = ({ s with failed := latch } : Server).leave op ∧ errored = true ∧
      (latch = s.failed ∨ latch = true) ∧
      (round.awaits = .helper → s.unfinished op > 0 → latch = true) ∧
      (round.awaits = .child → settled = true)) ∨
    (s' = s.nextRound op round rest ∧ errored = false ∧
      (s.unfinished op = 0 ∨ round.awaits = .child ∧ settled = true)) ∨
    (∃ latch, s' = ({ s with failed := latch } : Server).setStage op (.awaiting round rest errored true) ∧
      round.awaits = .child ∧ settled = false ∧
      ((errored = true ∧ s.unfinished op > 0 ∧ latch = true) ∨
        (s.unfinished op = 0 ∧ latch = s.failed))) := by
  unfold resume at h
  split at h
  · rename_i hawaits
    split_ifs at h with herrored hpos hzero
    · cases h
      exact .inl ⟨true, rfl, herrored, .inr rfl, fun _ _ => rfl, by simp [hawaits]⟩
    · cases h
      exact .inl ⟨s.failed, rfl, herrored, .inl rfl, fun _ h => absurd h hpos, by simp [hawaits]⟩
    · cases h
      exact .inr (.inl ⟨rfl, by simpa using herrored, .inl hzero⟩)
  iterate 2
    · rename_i hawaits
      split_ifs at h with herrored hzero
      · cases h
        exact .inl ⟨s.failed, rfl, herrored, .inl rfl, by simp [hawaits], by simp [hawaits]⟩
      · cases h
        exact .inr (.inl ⟨rfl, by simpa using herrored, .inl hzero⟩)
  · rename_i hawaits
    split_ifs at h with hset herrored herrored hpos hzero
    · cases h
      exact .inl ⟨s.failed, rfl, herrored, .inl rfl, by simp [hawaits], fun _ => hset⟩
    · cases h
      exact .inr (.inl ⟨rfl, by simpa using herrored, .inr ⟨hawaits, hset⟩⟩)
    · cases h
      exact .inr (.inr ⟨true, rfl, hawaits, by simpa using hset, .inl ⟨herrored, hpos, rfl⟩⟩)
    · cases h
      exact .inr (.inr ⟨s.failed, rfl, hawaits, by simpa using hset, .inr ⟨by omega, rfl⟩⟩)
    · cases h
      exact .inr (.inr ⟨s.failed, rfl, hawaits, by simpa using hset, .inr ⟨hzero, rfl⟩⟩)

theorem valid_resume (hvalid : Valid s) {round : Round} {rest : List Round} {errored settled : Bool}
    (hstage : s.stage op = some (.awaiting round rest errored settled))
    (h : resume s op round rest errored settled = some s') : Valid s' := by
  have hop := hvalid op
  rw [hstage] at hop
  obtain ⟨hsettled, hsaves⟩ := hop
  rcases resume_cases h with ⟨latch, rfl, -⟩ | ⟨rfl, herrored, hzero⟩ | ⟨latch, rfl, -, -, hzero⟩
  · exact hvalid.leave op _ _
  · refine hvalid.change op (.holding rest) ⟨fun _ _ => rfl, rfl, fun _ _ => rfl⟩ ⟨?_, hsaves⟩
    rcases hzero with hzero | ⟨-, hset⟩
    · exact hzero
    · exact hsettled hset herrored
  · refine hvalid.change op (.awaiting round rest errored true) ⟨fun _ _ => rfl, rfl, fun _ _ => rfl⟩
      ⟨fun _ hfalse => ?_, hsaves⟩
    rcases hzero with ⟨htrue, -⟩ | ⟨hzero, -⟩
    · rw [htrue] at hfalse
      cases hfalse
    · exact hzero

theorem valid_step (hvalid : Valid s) {a : Act} (h : step s a = some s') : Valid s' := by
  cases a with
  | arrive op kind =>
    simp only [step] at h
    split at h
    · cases h
    rename_i hstage
    have hzero : s.unfinished op = 0 := by
      have := hvalid op
      rw [hstage] at this
      exact this
    have hnew : ∀ stage : Stage, OpValid kind (some stage) 0 →
        Valid (({ s with kind := Function.update s.kind op kind } : Server).setStage op stage) := by
      intro stage hop
      refine hvalid.change op stage ⟨fun _ hp => update_of_ne hp _ _, rfl, fun _ _ => rfl⟩ ?_
      simpa [Server.setStage, hzero] using hop
    split_ifs at h
    · cases h
      exact hnew .ended trivial
    · cases h
      exact hnew .waiting rfl
  | acquire op =>
    simp only [step] at h
    split at h
    · rename_i hlock hstage
      have hop := hvalid op
      rw [hstage] at hop
      split_ifs at h
      · cases h
        exact hvalid.change op .ended ⟨fun _ _ => rfl, rfl, fun _ _ => rfl⟩ trivial
      · cases h
        exact hvalid.change op (.holding ((s.kind op).rounds s.ready)) ⟨fun _ _ => rfl, rfl, fun _ _ => rfl⟩
          ⟨hop, saveRounds_rounds _ _⟩
    · cases h
  | submit op refs rejected =>
    simp only [step] at h
    split at h
    · rename_i round rest hstage
      have hop := hvalid op
      rw [hstage] at hop
      have hrest : SaveRounds (s.kind op) rest :=
        fun prune hkind r hr => hop.2 prune hkind r (List.mem_cons_of_mem _ hr)
      split_ifs at h
      · cases h
        exact hvalid.leave op _ _
      · cases h
        exact hvalid.change op .ended ⟨fun _ _ => rfl, rfl, fun _ hp => update_of_ne hp _ _⟩ trivial
      · cases h
        exact hvalid.change op (.awaiting round rest false false)
          ⟨fun _ _ => rfl, rfl, fun _ hp => update_of_ne hp _ _⟩ ⟨by simp, hrest⟩
    · cases h
  | finishRef op error =>
    simp only [step] at h
    split_ifs at h with hpos
    split at h
    · rename_i round rest errored settled hstage
      have hop := hvalid op
      change s.stage op = _ at hstage
      rw [hstage] at hop
      cases h
      refine hvalid.change op (.awaiting round rest (errored || error) settled)
        ⟨fun _ _ => rfl, rfl, fun _ hp => update_of_ne hp _ _⟩ ⟨fun hset herrored => ?_, hop.2⟩
      have hfalse : errored = false := by
        cases errored
        · rfl
        · cases herrored
      have := hop.1 hset hfalse
      omega
    · rename_i hstage
      cases h
      intro p
      by_cases hp : p = op
      · subst hp
        have hop := hvalid p
        change OpValid (s.kind p) (s.stage p) _
        cases hst : s.stage p with
        | none =>
          rw [hst] at hop
          change s.unfinished p = 0 at hop
          omega
        | some st =>
          rw [hst] at hop
          cases st with
          | waiting =>
            change s.unfinished p = 0 at hop
            omega
          | holding rest =>
            have := hop.1
            omega
          | awaiting round rest errored settled => exact absurd hst (hstage round rest errored settled)
          | ended => trivial
      · simpa [update_of_ne hp] using hvalid p
  | resume op =>
    simp only [step] at h
    split at h
    · rename_i round rest errored settled hstage
      exact valid_resume hvalid hstage h
    · cases h
  | samplingFails op =>
    simp only [step] at h
    split at h
    · split_ifs at h
      · cases h
        exact hvalid.leave op _ _
      · cases h
        exact hvalid.leave op _ _
    · cases h
  | finish op =>
    simp only [step] at h
    split at h
    · cases h
      exact hvalid.leave op _ _
    · cases h
  | cancel op =>
    simp only [step] at h
    split at h
    · cases h
      exact hvalid.change op .ended ⟨fun _ _ => rfl, rfl, fun _ _ => rfl⟩ trivial
    · cases h
      exact hvalid.leave op _ _
    · cases h
      unfold cancelAwaiting
      split
      iterate 3
        · exact hvalid.leave op _ _
      · split_ifs
        · exact hvalid.leave op _ _
        · exact hvalid.leave op _ _
    · cases h
  | childCancelled op =>
    simp only [step] at h
    split_ifs at h
    cases h
    exact hvalid

end Steps

/-! ## Runs of guarded steps -/

/-- What holds besides of an operation in a run of guarded steps. -/
def OpKept (s : Server) (op : Nat) : Prop :=
  match s.stage op with
  | none | some .waiting => True
  | some (.holding rest) =>
    s.lock = some op ∧ (s.failed = true → ∀ round ∈ rest.head?,
      round.checkFailed = true ∧ (s.kind op).checksInLock = false)
  | some (.awaiting round _ errored settled) =>
    s.lock = some op ∧ (settled = true → s.unfinished op > 0 → s.failed = true) ∧
      (settled = true → round.awaits = .child) ∧ (s.failed = true → settled = true ∧ errored = true)
  | some .ended => s.unfinished op > 0 → s.failed = true

structure Kept (s : Server) : Prop where
  valid : Valid s
  ops : ∀ op, OpKept s op
  single : ∀ op op', s.unfinished op > 0 → s.unfinished op' > 0 → op = op'
  cancelling : s.cancelling = []

theorem kept_new : Kept new where
  valid := valid_new
  ops := fun _ => trivial
  single := by
    intro op op' h
    cases h
  cancelling := rfl

section Guards

variable {s s' : Server} {op : Nat}

theorem Kept.other (hkept : Kept s) {p : Nat} (hp : s.lock ≠ some p) :
    s.stage p = none ∨ s.stage p = some .waiting ∨
      s.stage p = some .ended ∧ (s.unfinished p > 0 → s.failed = true) := by
  have hop := hkept.ops p
  unfold OpKept at hop
  cases hst : s.stage p with
  | none => exact .inl rfl
  | some st =>
    rw [hst] at hop
    cases st with
    | waiting => exact .inr (.inl rfl)
    | holding rest => exact absurd hop.1 hp
    | awaiting round rest errored settled => exact absurd hop.1 hp
    | ended => exact .inr (.inr ⟨rfl, hop⟩)

/-- A step of one operation that no other operation sees, or that leaves the lock and the latch
alone, and that puts no references in flight. -/
theorem Kept.change (hkept : Kept s) (stage : Stage) (h : Changes s s' op stage)
    (hvalid : Valid s') (hother : (∀ p, p ≠ op → s.lock ≠ some p) ∨
      s'.lock = s.lock ∧ s'.failed = s.failed)
    (hfailed : s.failed = true → s'.failed = true) (hcancelling : s'.cancelling = s.cancelling)
    (hless : s'.unfinished op ≤ s.unfinished op) (hop : OpKept s' op) : Kept s' where
  valid := hvalid
  cancelling := by rw [hcancelling, hkept.cancelling]
  single := by
    have hle : ∀ p, s'.unfinished p ≤ s.unfinished p := by
      intro p
      by_cases hp : p = op
      · rw [hp]
        exact hless
      · exact Nat.le_of_eq (h.unfinished p hp)
    intro p p' hp hp'
    exact hkept.single p p' (Nat.lt_of_lt_of_le hp (hle p)) (Nat.lt_of_lt_of_le hp' (hle p'))
  ops := by
    intro p
    by_cases hp : p = op
    · rw [hp]
      exact hop
    · rcases hother with hlock | ⟨hlock, hfail⟩
      · have hold := hkept.other (hlock p hp)
        unfold OpKept
        rw [h.other hp, h.unfinished p hp]
        rcases hold with hst | hst | ⟨hst, hended⟩
        · rw [hst]
          trivial
        · rw [hst]
          trivial
        · rw [hst]
          exact fun hpos => hfailed (hended hpos)
      · have hold := hkept.ops p
        unfold OpKept at hold ⊢
        rw [h.other hp, h.unfinished p hp, hlock, hfail, h.kind p hp]
        exact hold

theorem lock_other (hlock : s.lock = some op) : ∀ p, p ≠ op → s.lock ≠ some p := by
  intro p hp heq
  rw [hlock] at heq
  exact hp (Option.some.inj heq).symm

theorem Kept.leave (hkept : Kept s) (hlock : s.lock = some op) (latch : Bool)
    (hvalid : Valid (({ s with failed := latch } : Server).leave op))
    (hfailed : s.failed = true → latch = true) (hpos : s.unfinished op > 0 → latch = true) :
    Kept (({ s with failed := latch } : Server).leave op) := by
  refine hkept.change .ended ⟨fun _ _ => rfl, rfl, fun _ _ => rfl⟩ hvalid (.inl (lock_other hlock)) hfailed rfl
    (Nat.le_refl _) ?_
  simpa [OpKept, Server.leave, Server.setStage] using hpos

theorem kept_arrive (hkept : Kept s) {kind : Kind} (h : step s (.arrive op kind) = some s') :
    Kept s' := by
  have hvalid := valid_step hkept.valid h
  simp only [step] at h
  split at h
  · cases h
  rename_i hstage
  have hzero : s.unfinished op = 0 := by
    have := hkept.valid op
    rw [hstage] at this
    exact this
  split_ifs at h
  · cases h
    refine hkept.change .ended ⟨fun _ hp => update_of_ne hp _ _, rfl, fun _ _ => rfl⟩ hvalid
      (.inr ⟨rfl, rfl⟩) (fun h => h) rfl (Nat.le_refl _) ?_
    simp [OpKept, Server.setStage, hzero]
  · cases h
    refine hkept.change .waiting ⟨fun _ hp => update_of_ne hp _ _, rfl, fun _ _ => rfl⟩ hvalid
      (.inr ⟨rfl, rfl⟩) (fun h => h) rfl (Nat.le_refl _) ?_
    simp [OpKept, Server.setStage]

theorem rounds_head {kind : Kind} (hkind : kind.checksInLock = false) (ready : Bool) :
    ∀ round ∈ (kind.rounds ready).head?, round.checkFailed = true := by
  intro round hround
  cases kind with
  | save prune =>
    simp only [Kind.rounds, List.head?_cons, Option.mem_some_iff] at hround
    rw [← hround]
    rfl
  | emptyTrainingCache =>
    simp only [Kind.rounds, List.head?_cons, Option.mem_some_iff] at hround
    rw [← hround]
  | forwardBackward => cases hkind
  | forward => cases hkind
  | step => cases hkind
  | loadCheckpoint => cases hkind
  | syncWeightsNccl => cases hkind
  | syncWeightsColocated n => cases hkind

section

variable (hkept : Kept s)
include hkept

theorem kept_acquire (h : step s (.acquire op) = some s') : Kept s' := by
  have hvalid := valid_step hkept.valid h
  simp only [step] at h
  split at h
  · rename_i hlock hstage
    have hzero : s.unfinished op = 0 := by
      have := hkept.valid op
      rw [hstage] at this
      exact this
    have hfree : ∀ p, p ≠ op → s.lock ≠ some p := by
      intro p _ heq
      rw [hlock] at heq
      cases heq
    split_ifs at h with hcheck
    · cases h
      refine hkept.change .ended ⟨fun _ _ => rfl, rfl, fun _ _ => rfl⟩ hvalid (.inl hfree)
        (fun h => h) rfl (Nat.le_refl _) ?_
      simp [OpKept, Server.setStage, hzero]
    · cases h
      refine hkept.change (.holding _) ⟨fun _ _ => rfl, rfl, fun _ _ => rfl⟩ hvalid (.inl hfree)
        (fun h => h) rfl (Nat.le_refl _) ?_
      simp only [OpKept, Server.setStage, update_self, true_and]
      intro hfailed round hround
      have hkind : (s.kind op).checksInLock = false := by
        by_contra hne
        exact hcheck ⟨by simpa using hne, hfailed⟩
      exact ⟨rounds_head hkind s.ready round hround, hkind⟩
  · cases h

theorem kept_submit {refs : Nat} {rejected : Bool}
    (hok : Guarded s (.submit op refs rejected)) (h : step s (.submit op refs rejected) = some s') :
    Kept s' := by
  have hvalid := valid_step hkept.valid h
  change rejected = false at hok
  subst hok
  simp only [step] at h
  split at h
  · rename_i round rest hstage
    have hop := hkept.ops op
    unfold OpKept at hop
    rw [hstage] at hop
    obtain ⟨hlock, hholding⟩ := hop
    have hzero : s.unfinished op = 0 := by
      have := hkept.valid op
      rw [hstage] at this
      exact this.1
    split_ifs at h with hcheck hrejected
    · cases h
      exact hkept.leave hlock s.failed hvalid (fun h => h) fun hpos => by omega
    · cases hrejected.1
    · cases h
      have hnot : s.failed = false := by
        by_contra hne
        have hfailed : s.failed = true := by simpa using hne
        exact hcheck ⟨(hholding hfailed round rfl).1, hfailed⟩
      -- No other operation has references in flight, since the latch is not set.
      have hothers : ∀ p, p ≠ op → s.unfinished p = 0 := by
        intro p hp
        rcases hkept.other (lock_other hlock p hp) with hst | hst | ⟨-, hended⟩
        · have := hkept.valid p
          rw [hst] at this
          exact this
        · have := hkept.valid p
          rw [hst] at this
          exact this
        · by_contra hpos
          rw [hended (Nat.pos_of_ne_zero hpos)] at hnot
          cases hnot
      have hsingle : ∀ p, Function.update s.unfinished op refs p > 0 → p = op := by
        intro p hpos
        by_contra hp
        rw [update_of_ne hp, hothers p hp] at hpos
        cases hpos
      refine ⟨hvalid, ?_, ?_, hkept.cancelling⟩
      · intro p
        unfold OpKept
        by_cases hp : p = op
        · subst hp
          simp [Server.setStage, hlock, hnot]
        · simp only [Server.setStage, update_of_ne hp]
          exact hkept.ops p
      · intro p p' hp hp'
        rw [hsingle p hp, hsingle p' hp']
  · cases h

theorem kept_finishRef {error : Bool} (h : step s (.finishRef op error) = some s') : Kept s' := by
  have hvalid := valid_step hkept.valid h
  simp only [step] at h
  split_ifs at h with hpos
  split at h
  · rename_i round rest errored settled hstage
    change s.stage op = _ at hstage
    have hop := hkept.ops op
    unfold OpKept at hop
    rw [hstage] at hop
    obtain ⟨hlock, hsettled, hchild, hfailed⟩ := hop
    cases h
    refine hkept.change (.awaiting round rest (errored || error) settled)
      ⟨fun _ _ => rfl, rfl, fun _ hp => update_of_ne hp _ _⟩ hvalid (.inr ⟨rfl, rfl⟩)
      (fun h => h) rfl (by simp [Server.setStage]) ?_
    simp only [OpKept, Server.setStage, update_self]
    refine ⟨hlock, fun hset _ => hsettled hset hpos, hchild, fun hfail => ?_⟩
    obtain ⟨hset, herrored⟩ := hfailed hfail
    exact ⟨hset, by rw [herrored]; rfl⟩
  · rename_i hstage
    change ∀ round rest errored settled, s.stage op = _ → False at hstage
    cases h
    refine ⟨hvalid, ?_, ?_, hkept.cancelling⟩
    · intro p
      have hop := hkept.ops p
      unfold OpKept at hop ⊢
      by_cases hp : p = op
      · subst hp
        dsimp only
        cases hst : s.stage p with
        | none => trivial
        | some st =>
          rw [hst] at hop
          cases st with
          | waiting => trivial
          | holding rest => exact hop
          | awaiting round rest errored settled => exact absurd hst (hstage round rest errored settled)
          | ended => exact fun _ => hop hpos
      · simpa [update_of_ne hp] using hop
    · have hle : ∀ p, Function.update s.unfinished op (s.unfinished op - 1) p ≤ s.unfinished p := by
        intro p
        by_cases hp : p = op
        · subst hp
          simp
        · exact Nat.le_of_eq (update_of_ne hp _ _)
      intro p p' hp hp'
      exact hkept.single p p' (Nat.lt_of_lt_of_le hp (hle p)) (Nat.lt_of_lt_of_le hp' (hle p'))

theorem kept_resume (hok : Guarded s (.resume op))
    (h : step s (.resume op) = some s') : Kept s' := by
  have hvalid := valid_step hkept.valid h
  simp only [step] at h
  split at h
  · rename_i round rest errored settled hstage
    have hop := hkept.ops op
    unfold OpKept at hop
    rw [hstage] at hop
    obtain ⟨hlock, hsettled, hchild, hfailed⟩ := hop
    have hop' := hkept.valid op
    rw [hstage] at hop'
    simp only [Guarded, hstage] at hok
    rcases resume_cases h with ⟨latch, rfl, herrored, hlatch, hhelper, hchildSettled⟩ |
      ⟨rfl, herrored, hzero⟩ | ⟨latch, rfl, hawaits, hset, hcase⟩
    · have hmono : s.failed = true → latch = true := by
        intro hfail
        rcases hlatch with hl | hl
        · rw [hl, hfail]
        · exact hl
      refine hkept.leave hlock latch hvalid hmono ?_
      intro hpos
      obtain ⟨check, awaits, setsReady⟩ := round
      cases awaits with
      | helper => exact hhelper rfl hpos
      | child => exact hmono (hsettled (hchildSettled rfl) hpos)
      | plain | actor =>
        rw [herrored] at hok
        have hzero : s.unfinished op = 0 := of_decide_eq_true hok
        omega
    · have hnot : s.failed = false := by
        by_contra hne
        have := (hfailed (by simpa using hne)).2
        rw [herrored] at this
        cases this
      refine hkept.change (.holding rest) ⟨fun _ _ => rfl, rfl, fun _ _ => rfl⟩ hvalid
        (.inl (lock_other hlock)) (fun h => h) rfl (Nat.le_refl _) ?_
      simp only [OpKept, Server.nextRound, Server.setStage, update_self]
      exact ⟨hlock, fun hfail => by rw [hnot] at hfail; cases hfail⟩
    · have hnot : s.failed = false := by
        by_contra hne
        have := (hfailed (by simpa using hne)).1
        rw [hset] at this
        cases this
      refine hkept.change (.awaiting round rest errored true) ⟨fun _ _ => rfl, rfl, fun _ _ => rfl⟩
        hvalid (.inl (lock_other hlock)) (fun hfail => by rw [hnot] at hfail; cases hfail) rfl
        (Nat.le_refl _) ?_
      simp only [OpKept, Server.setStage, update_self]
      refine ⟨hlock, ?_, fun _ => hawaits, ?_⟩
      · intro _ hpos
        rcases hcase with ⟨-, -, hl⟩ | ⟨hz, -⟩
        · exact hl
        · omega
      · intro hl
        rcases hcase with ⟨herrored, -, -⟩ | ⟨-, hl'⟩
        · exact ⟨trivial, herrored⟩
        · rw [hl', hnot] at hl
          cases hl
  · cases h

theorem kept_samplingFails (h : step s (.samplingFails op) = some s') : Kept s' := by
  have hvalid := valid_step hkept.valid h
  simp only [step] at h
  split at h
  · rename_i check setsReady rest errored settled hstage
    have hop := hkept.ops op
    unfold OpKept at hop
    rw [hstage] at hop
    obtain ⟨hlock, hsettled, -, -⟩ := hop
    split_ifs at h with hset
    · cases h
      exact hkept.leave hlock s.failed hvalid (fun h => h) (hsettled hset)
    · cases h
      exact hkept.leave hlock true hvalid (fun _ => rfl) fun _ => rfl
  · cases h

theorem kept_finish (h : step s (.finish op) = some s') : Kept s' := by
  have hvalid := valid_step hkept.valid h
  simp only [step] at h
  split at h
  · rename_i hstage
    have hop := hkept.ops op
    unfold OpKept at hop
    rw [hstage] at hop
    have hzero := hkept.valid op
    rw [hstage] at hzero
    cases h
    exact hkept.leave hop.1 s.failed hvalid (fun h => h) fun hpos => by have := hzero.1; omega
  · cases h

theorem kept_cancel (hok : Guarded s (.cancel op))
    (h : step s (.cancel op) = some s') : Kept s' := by
  have hvalid := valid_step hkept.valid h
  have hop := hkept.ops op
  have hop' := hkept.valid op
  unfold OpKept at hop
  simp only [step] at h
  split at h
  · rename_i hstage
    rw [hstage] at hop'
    cases h
    refine hkept.change .ended ⟨fun _ _ => rfl, rfl, fun _ _ => rfl⟩ hvalid (.inr ⟨rfl, rfl⟩)
      (fun h => h) rfl (Nat.le_refl _) ?_
    have hzero : s.unfinished op = 0 := hop'
    simp [OpKept, Server.setStage, hzero]
  · rename_i rest hstage
    rw [hstage] at hop hop'
    cases h
    exact hkept.leave hop.1 s.failed hvalid (fun h => h) fun hpos => by have := hop'.1; omega
  · rename_i round rest errored settled hstage
    rw [hstage] at hop hop'
    obtain ⟨hlock, hsettled, -, -⟩ := hop
    simp only [Guarded, hstage] at hok
    cases h
    obtain ⟨check, awaits, setsReady⟩ := round
    cases awaits with
    | helper | actor => exact hkept.leave hlock true hvalid (fun _ => rfl) fun _ => rfl
    | plain =>
      have hzero : s.unfinished op = 0 := of_decide_eq_true hok
      exact hkept.leave hlock s.failed hvalid (fun h => h) fun hpos => by omega
    | child =>
      have hset : settled = true := hok
      subst hset
      exact hkept.leave hlock s.failed hvalid (fun h => h) (hsettled rfl)
  · cases h

theorem kept_step {a : Act} (hok : Guarded s a) (h : step s a = some s') : Kept s' := by
  cases a with
  | arrive op kind => exact kept_arrive hkept h
  | acquire op => exact kept_acquire hkept h
  | submit op refs rejected => exact kept_submit hkept hok h
  | finishRef op error => exact kept_finishRef hkept h
  | resume op => exact kept_resume hkept hok h
  | samplingFails op => exact kept_samplingFails hkept h
  | finish op => exact kept_finish hkept h
  | cancel op => exact kept_cancel hkept hok h
  | childCancelled op =>
    simp only [step, hkept.cancelling] at h
    cases h

theorem exclusive_of_kept : Exclusive s where
  single := hkept.single
  latched := by
    intro op hstage
    have hop := hkept.ops op
    unfold OpKept at hop
    rw [hstage] at hop
    exact hop
  refused := by
    rintro hfailed op refs rejected hkind hrefs ⟨s', h, hunfinished⟩
    simp only [step] at h
    split at h
    · rename_i round rest hstage
      have hop := hkept.ops op
      unfold OpKept at hop
      rw [hstage] at hop
      rw [(hop.2 hfailed round rfl).2] at hkind
      cases hkind
    · cases h

end

theorem save_submits_iff (hvalid : Valid s) {prune : Bool} {refs : Nat} {round : Round}
    {rest : List Round} (hkind : s.kind op = .save prune)
    (hstage : s.stage op = some (.holding (round :: rest))) (hrefs : refs > 0) :
    Submits s op refs false ↔ s.failed = false := by
  have hop := hvalid op
  rw [hstage] at hop
  obtain ⟨hzero, hsaves⟩ := hop
  have hround : round = awaitTrainingRefs := hsaves prune hkind round List.mem_cons_self
  unfold Submits
  simp only [step, hstage, hround, awaitTrainingRefs]
  cases s.failed with
  | true =>
    simp only [and_self, if_true]
    constructor
    · rintro ⟨s', hs', hunfinished⟩
      cases hs'
      change s.unfinished op = refs at hunfinished
      omega
    · intro h
      cases h
  | false => simp [Server.setStage]

end Guards

/-- In a run of guarded steps one operation at a time has references in flight, one that ends with
references in flight has set the latch, and once it is set no forward, step, load or weight sync
submits.  In every run a save that has the lock submits exactly as long as the latch is not set. -/
theorem training_ops_exclusive (s : Server) :
    (Reaches step Guarded new s → Exclusive s) ∧
      (Reaches step Always new s → ∀ op prune refs round rest, s.kind op = .save prune →
        s.stage op = some (.holding (round :: rest)) → refs > 0 →
        (Submits s op refs false ↔ s.failed = false)) := by
  constructor
  · intro hs
    have hkept : Kept s := hs.invariant kept_new fun _ _ _ hkept hok h => kept_step hkept hok h
    exact exclusive_of_kept hkept
  · intro hs op prune refs round rest hkind hstage hrefs
    have hvalid : Valid s := hs.invariant valid_new fun _ _ _ hvalid _ h => valid_step hvalid h
    exact save_submits_iff hvalid hkind hstage hrefs

/-- A step whose client is gone sets the latch, and a weight sync is refused; a save before that
submits. -/
theorem training_ops_exclusive_cancelled :
    (∃ s, Reaches step Guarded new s ∧ s.failed = true ∧ s.stage 0 = some .ended ∧
      s.unfinished 0 = 2 ∧ s.stage 1 = some .ended ∧ s.unfinished 1 = 0 ∧ Exclusive s) ∧
    ∃ s, Reaches step Always new s ∧ s.kind 0 = .save false ∧ Submits s 0 2 false := by
  constructor
  · have hrun : ∃ s, Reaches step Guarded new s ∧ s.failed = true ∧ s.stage 0 = some .ended ∧
        s.unfinished 0 = 2 ∧ s.stage 1 = some .ended ∧ s.unfinished 1 = 0 := by
      apply exists_reaches [.arrive 0 .step, .arrive 1 .syncWeightsNccl, .acquire 0,
        .submit 0 2 false, .cancel 0, .acquire 1]
      decide
    obtain ⟨s, hs, hfailed, h0, h2, h1, hzero⟩ := hrun
    exact ⟨s, hs, hfailed, h0, h2, h1, hzero, (training_ops_exclusive s).1 hs⟩
  · have hrun : ∃ s, Reaches step Always new s ∧ s.kind 0 = .save false ∧
        s.stage 0 = some (.holding [awaitTrainingRefs]) ∧ s.failed = false := by
      apply exists_reaches [.arrive 0 (.save false), .acquire 0]
      decide
    obtain ⟨s, hs, hkind, hstage, hfailed⟩ := hrun
    have hiff := (training_ops_exclusive s).2 hs 0 false 2 awaitTrainingRefs [] hkind hstage (by decide)
    exact ⟨s, hs, hkind, hiff.mpr hfailed⟩

/-- A step overlaps with the references of a colocated weight sync that was cancelled, and with
those that the state actor left running after an error; a save after a failure submits nothing. -/
theorem training_ops_overlap :
    (∃ s, Reaches step Always new s ∧ s.kind 0 = .syncWeightsColocated 2 ∧
      s.stage 0 = some .ended ∧ s.failed = false ∧ ¬ Exclusive s) ∧
    (∃ s, Reaches step Always new s ∧ s.kind 0 = .emptyTrainingCache ∧
      s.stage 0 = some .ended ∧ s.failed = false ∧ ¬ Exclusive s) ∧
      ∃ s, Reaches step Always new s ∧ s.failed = true ∧ ¬ SaveSubmits s := by
  have hoverlap : ∀ s : Server, s.unfinished 0 > 0 → s.unfinished 1 > 0 → ¬ Exclusive s :=
    fun s h0 h1 hexclusive => absurd (hexclusive.single 0 1 h0 h1) (by decide)
  refine ⟨?_, ?_, ?_⟩
  · have hrun : ∃ s, Reaches step Always new s ∧ s.kind 0 = .syncWeightsColocated 2 ∧
        s.stage 0 = some .ended ∧ s.failed = false ∧ s.unfinished 0 > 0 ∧ s.unfinished 1 > 0 := by
      apply exists_reaches [.arrive 0 (.syncWeightsColocated 2), .acquire 0, .submit 0 2 false,
        .cancel 0, .arrive 1 .step, .acquire 1, .submit 1 2 false]
      decide
    obtain ⟨s, hs, hkind, hstage, hfailed, h0, h1⟩ := hrun
    exact ⟨s, hs, hkind, hstage, hfailed, hoverlap s h0 h1⟩
  · have hrun : ∃ s, Reaches step Always new s ∧ s.kind 0 = .emptyTrainingCache ∧
        s.stage 0 = some .ended ∧ s.failed = false ∧ s.unfinished 0 > 0 ∧ s.unfinished 1 > 0 := by
      apply exists_reaches [.arrive 0 .emptyTrainingCache, .acquire 0, .submit 0 2 false,
        .finishRef 0 true, .resume 0, .arrive 1 .step, .acquire 1, .submit 1 2 false]
      decide
    obtain ⟨s, hs, hkind, hstage, hfailed, h0, h1⟩ := hrun
    exact ⟨s, hs, hkind, hstage, hfailed, hoverlap s h0 h1⟩
  · have hrun : ∃ s, Reaches step Always new s ∧ s.failed = true ∧ s.kind 1 = .save false ∧
        s.stage 1 = some (.holding [awaitTrainingRefs]) := by
      apply exists_reaches [.arrive 0 .step, .acquire 0, .submit 0 2 false, .finishRef 0 true,
        .resume 0, .arrive 1 (.save false), .acquire 1]
      decide
    obtain ⟨s, hs, hfailed, hkind, hstage⟩ := hrun
    refine ⟨s, hs, hfailed, fun hsubmits => ?_⟩
    have hvalid : Valid s := hs.invariant valid_new fun _ _ _ hvalid _ h => valid_step hvalid h
    have hnot := (save_submits_iff hvalid hkind hstage (by decide : 2 > 0)).mp
      (hsubmits 1 false 2 _ _ hkind hstage (by decide))
    rw [hfailed] at hnot
    cases hnot

end ArcticPlatform.Training
