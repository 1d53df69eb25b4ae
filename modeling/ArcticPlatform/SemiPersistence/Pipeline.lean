import ArcticPlatform.Library.Runs
import Mathlib.Data.List.Basic

/-!
# Pipelines of a model

An embedding of `ModelPipeline` of `inference/semi_persistence/pipeline.py`: a queue of
operations with one worker thread, and a front buffer that the worker looks at first.  Operations
are named, and a name is submitted once.  A call is one step for each access that it makes to what
the threads share.

Main results:

- Theorem `pipeline_loses_nothing`: every operation is executed at most once, tail operations
  in the order of their submission; and when the steps meet `Guarded`, no operation is lost and
  `drain` waits for all of them.
-/

namespace ArcticPlatform.SemiPersistence.Pipeline

open Runs List

variable {ω : Type}

/-- What is in the queue: a tail operation, the `_NoOp` of `submit_front` or `_SHUTDOWN`. -/
inductive Item (ω : Type) where
  | op (op : ω)
  | noOp
  | sentinel
  deriving DecidableEq

/-- Where the worker is in `_run`. -/
inductive Worker (ω : Type) where
  /-- About to look at the front buffer in `_next_item`. -/
  | looking
  /-- In `_q.get()`: the front buffer was empty. -/
  | getting
  /-- In `op.execute`, of an operation of the front buffer or the tail. -/
  | running (op : ω) (front : Bool)
  /-- About to call `task_done()`. -/
  | settling
  | exited
  deriving DecidableEq

/-- What has happened, for the properties of whole runs. -/
inductive Event (ω : Type) where
  /-- `submit` has put an operation into the queue and returns. -/
  | submitted (op : ω)
  /-- `submit_front` has put an operation into the front buffer. -/
  | fronted (op : ω)
  /-- `submit_front` returns. -/
  | returned (op : ω)
  /-- The worker has taken an operation and executes it. -/
  | started (op : ω) (front : Bool)
  /-- The future of an operation is resolved. -/
  | resolved (op : ω)
  /-- `drain` returns true. -/
  | drained
  deriving DecidableEq

/-- The operations that `submit` has put into the queue. -/
def submittedOps (log : List (Event ω)) : List ω :=
  log.filterMap fun | .submitted op => some op | _ => none

/-- The operations that `submit_front` has put into the front buffer. -/
def frontedOps (log : List (Event ω)) : List ω :=
  log.filterMap fun | .fronted op => some op | _ => none

/-- The operations from the tail, or from the front buffer, that have been started. -/
def startedOps (front : Bool) (log : List (Event ω)) : List ω :=
  log.filterMap fun
    | .started op fr => if fr = front then some op else none
    | _ => none

/-- The operations among items. -/
def itemOps (items : List (Item ω)) : List ω :=
  items.filterMap fun | .op op => some op | _ => none

/-- The fields that the threads share, and where each thread is. -/
structure State (ω : Type) where
  /-- `_q` -/
  tail : List (Item ω)
  /-- `_q.unfinished_tasks` -/
  unfinished : Nat
  /-- `_front` -/
  front : List ω
  /-- `_stopping` -/
  stopping : Bool
  worker : Worker ω
  /-- The calls of `submit_front` that have yet to put their `_NoOp`. -/
  waking : List ω
  /-- The calls of `drain` that have yet to read the count, with what they have seen in the front
  buffer: whether it was empty. -/
  drains : List Bool
  log : List (Event ω)

/-- A new pipeline. -/
def new : State ω := ⟨[], 0, [], false, .looking, [], [], []⟩

/-- What a thread does. -/
inductive Act (ω : Type) where
  /-- `submit` -/
  | submit (op : ω)
  /-- `submit_front`, up to the append under the lock of the front buffer -/
  | putFront (op : ω)
  /-- `submit_front`, the rest -/
  | wake (op : ω)
  /-- `shutdown`, after it has drained or has not -/
  | shutdown
  /-- `drain`, the look at the front buffer -/
  | drainLook
  /-- `drain`, the look at the count -/
  | drainCount (frontEmpty : Bool)
  /-- The worker looks at the front buffer. -/
  | look
  /-- The worker takes an item of the queue. -/
  | get
  /-- The operation returns or raises, and the worker resolves its future. -/
  | finish
  /-- The worker calls `task_done()`. -/
  | settle

section Step

variable [DecidableEq ω]

/-- `_q.put`. -/
def State.put (s : State ω) (item : Item ω) : State ω :=
  { s with tail := s.tail ++ [item], unfinished := s.unfinished + 1 }

/-- An operation has not been submitted. -/
def State.Fresh (s : State ω) (op : ω) : Prop :=
  op ∉ submittedOps s.log ∧ op ∉ frontedOps s.log

instance (s : State ω) (op : ω) : Decidable (s.Fresh op) :=
  inferInstanceAs (Decidable (_ ∧ _))

/-- One step of a thread, if it can take it. -/
def step (s : State ω) : Act ω → Option (State ω)
  | .submit op =>
    if s.Fresh op then some { s.put (.op op) with log := s.log ++ [.submitted op] } else none
  | .putFront op =>
    if s.Fresh op then
      some { s with
        front := s.front ++ [op], waking := op :: s.waking, log := s.log ++ [.fronted op] }
    else none
  | .wake op =>
    if op ∈ s.waking then
      some { s.put .noOp with waking := s.waking.erase op, log := s.log ++ [.returned op] }
    else none
  | .shutdown => some { s.put .sentinel with stopping := true }
  | .drainLook => some { s with drains := s.front.isEmpty :: s.drains }
  | .drainCount frontEmpty =>
    if frontEmpty ∈ s.drains then
      some { s with
        drains := s.drains.erase frontEmpty
        log := if frontEmpty ∧ s.unfinished = 0 then s.log ++ [.drained] else s.log }
    else none
  | .look =>
    match s.worker, s.front with
    | .looking, [] => some { s with worker := .getting }
    | .looking, op :: rest =>
      some { s with
        worker := .running op true, front := rest, log := s.log ++ [.started op true] }
    | _, _ => none
  | .get =>
    match s.worker, s.tail with
    | .getting, .op op :: rest =>
      some { s with
        worker := .running op false, tail := rest, log := s.log ++ [.started op false] }
    | .getting, .noOp :: rest => some { s with worker := .settling, tail := rest }
    | .getting, .sentinel :: rest => some { s with worker := .exited, tail := rest }
    | _, _ => none
  | .finish =>
    match s.worker with
    | .running op front =>
      some { s with
        worker := if front then .looking else .settling, log := s.log ++ [.resolved op] }
    | _ => none
  | .settle =>
    match s.worker with
    | .settling => some { s with worker := .looking, unfinished := s.unfinished - 1 }
    | _ => none

end Step

/-! ## What a pipeline promises -/

/-- Operations are executed at most once, those of the tail in the order of their submission. -/
structure InOrder (s : State ω) : Prop where
  once : (startedOps false s.log ++ startedOps true s.log).Nodup
  fifo : startedOps false s.log <+: submittedOps s.log

/-- No operation is lost. -/
structure LosesNothing (s : State ω) : Prop extends InOrder s where
  /-- A tail operation is started after every front operation whose `submit_front` has returned. -/
  frontFirst : EachTime (fun past e => ∀ op, e = .started op false →
    ∀ f, .returned f ∈ past → .started f true ∈ past) s.log
  /-- When the worker has exited, every future that a caller has is resolved. -/
  resolved : s.worker = .exited → ∀ op, .submitted op ∈ s.log ∨ .returned op ∈ s.log →
    .resolved op ∈ s.log
  /-- When `drain` returns true, no operation is queued or executed. -/
  drained : EachTime (fun past e => e = .drained →
    ∀ op, .submitted op ∈ past ∨ .fronted op ∈ past → .resolved op ∈ past) s.log

/-- The worker executes a front operation. -/
def Worker.runsFront : Worker ω → Bool
  | .running _ front => front
  | _ => false

/-- No front operation is left waiting for its wake-up by a worker that is in `_q.get()`. -/
def State.Covered (s : State ω) : Prop := s.worker = .getting → s.tail = [] → s.front = []

/-- The steps that the pipeline is made for. -/
def Guarded (s : State ω) : Act ω → Prop
  | .submit _ => s.stopping = false ∧ s.Covered
  | .shutdown => s.Covered
  | .putFront _ =>
    s.worker ≠ .exited ∧ (s.worker = .getting → s.tail.head? = none ∨ s.tail.head? = some .noOp)
  | .drainCount frontEmpty => frontEmpty = true → s.unfinished = 0 →
    s.front = [] ∧ s.worker.runsFront = false
  | _ => True

instance [DecidableEq ω] (s : State ω) (a : Act ω) : Decidable (Guarded s a) :=
  match a with
  | .submit _ => inferInstanceAs (Decidable (_ ∧ (_ → _ → _)))
  | .shutdown => inferInstanceAs (Decidable (_ → _ → _))
  | .putFront _ => inferInstanceAs (Decidable (_ ∧ (_ → _ ∨ _)))
  | .drainCount _ => inferInstanceAs (Decidable (_ → _ → _ ∧ _))
  | .wake _ | .drainLook | .look | .get | .finish | .settle => inferInstanceAs (Decidable True)

/-! ## The invariant -/

section Histories

@[simp]
theorem submittedOps_snoc (log : List (Event ω)) (e : Event ω) :
    submittedOps (log ++ [e]) =
      submittedOps log ++ match e with | .submitted op => [op] | _ => [] := by
  unfold submittedOps
  rw [filterMap_append]
  cases e <;> rfl

@[simp]
theorem frontedOps_snoc (log : List (Event ω)) (e : Event ω) :
    frontedOps (log ++ [e]) = frontedOps log ++ match e with | .fronted op => [op] | _ => [] := by
  unfold frontedOps
  rw [filterMap_append]
  cases e <;> rfl

@[simp]
theorem startedOps_snoc (front : Bool) (log : List (Event ω)) (e : Event ω) :
    startedOps front (log ++ [e]) = startedOps front log ++
        match e with | .started op fr => (if fr = front then [op] else []) | _ => [] := by
  unfold startedOps
  rw [filterMap_append]
  cases e with
  | started op fr => by_cases h : fr = front <;> simp [h]
  | submitted op => rfl
  | fronted op => rfl
  | returned op => rfl
  | resolved op => rfl
  | drained => rfl

@[simp]
theorem itemOps_snoc (items : List (Item ω)) (item : Item ω) :
    itemOps (items ++ [item]) = itemOps items ++ match item with | .op op => [op] | _ => [] := by
  unfold itemOps
  rw [filterMap_append]
  cases item <;> rfl

@[simp]
theorem itemOps_cons (item : Item ω) (items : List (Item ω)) :
    itemOps (item :: items) = (match item with | .op op => [op] | _ => []) ++ itemOps items := by
  cases item <;> rfl

variable {log : List (Event ω)} {op : ω}

theorem mem_submittedOps : op ∈ submittedOps log ↔ .submitted op ∈ log := by
  unfold submittedOps
  rw [mem_filterMap]
  constructor
  · rintro ⟨e, he, hop⟩
    split at hop <;> cases hop
    exact he
  · exact fun h => ⟨_, h, rfl⟩

theorem mem_frontedOps : op ∈ frontedOps log ↔ .fronted op ∈ log := by
  unfold frontedOps
  rw [mem_filterMap]
  constructor
  · rintro ⟨e, he, hop⟩
    split at hop <;> cases hop
    exact he
  · exact fun h => ⟨_, h, rfl⟩

theorem mem_startedOps {front : Bool} : op ∈ startedOps front log ↔ .started op front ∈ log := by
  unfold startedOps
  rw [mem_filterMap]
  constructor
  · rintro ⟨e, he, hop⟩
    split at hop
    · split_ifs at hop with hfront
      cases hop
      exact hfront ▸ he
    · cases hop
  · exact fun h => ⟨_, h, if_pos rfl⟩

end Histories

/-- The tasks that the worker has taken and not settled. -/
def Worker.held : Worker ω → Nat
  | .looking => 0
  | .getting => 0
  | .running _ front => if front then 0 else 1
  | .settling => 1
  | .exited => 1

/-- What holds in every run. -/
structure Valid (s : State ω) : Prop where
  tailOps : submittedOps s.log = startedOps false s.log ++ itemOps s.tail
  frontOps : frontedOps s.log = startedOps true s.log ++ s.front
  nodup : (submittedOps s.log ++ frontedOps s.log).Nodup
  done : ∀ op front, .started op front ∈ s.log → .resolved op ∈ s.log ∨ s.worker = .running op front
  count : s.unfinished = s.tail.length + s.worker.held
  known : ∀ op, .returned op ∈ s.log ∨ op ∈ s.waking → op ∈ frontedOps s.log

theorem valid_new : Valid (new : State ω) where
  tailOps := rfl
  frontOps := rfl
  nodup := nodup_nil
  done := by
    intro op front h
    cases h
  count := rfl
  known := by
    intro op h
    rcases h with h | h <;> cases h

section Steps

variable [DecidableEq ω] {s s' : State ω}

variable {op : ω}

section

variable (hvalid : Valid s)
include hvalid

theorem valid_submit (h : step s (.submit op) = some s') : Valid s' := by
  simp only [step] at h
  split_ifs at h with hfresh
  cases h
  refine ⟨?_, ?_, ?_, ?_, ?_, ?_⟩
  · simp [State.put, hvalid.tailOps]
  · simpa [State.put] using hvalid.frontOps
  · have := hvalid.nodup
    simp only [submittedOps_snoc, frontedOps_snoc, append_nil]
    rw [append_assoc, singleton_append, perm_middle.nodup_iff, nodup_cons]
    exact ⟨by simpa [State.Fresh] using hfresh, this⟩
  · intro o front h
    simpa [State.put] using hvalid.done o front (by simpa using h)
  · simp only [State.put, length_append, length_singleton, hvalid.count]
    omega
  · intro o h
    simpa using hvalid.known o (by simpa [State.put] using h)

theorem valid_putFront (h : step s (.putFront op) = some s') : Valid s' := by
  simp only [step] at h
  split_ifs at h with hfresh
  cases h
  refine ⟨?_, ?_, ?_, ?_, hvalid.count, ?_⟩
  · simpa using hvalid.tailOps
  · simp [hvalid.frontOps]
  · have := hvalid.nodup
    simp only [submittedOps_snoc, frontedOps_snoc, append_nil]
    rw [← append_assoc, perm_append_comm.nodup_iff, singleton_append, nodup_cons]
    exact ⟨by simpa [State.Fresh] using hfresh, this⟩
  · intro o front h
    simpa using hvalid.done o front (by simpa using h)
  · intro o h
    simp only [frontedOps_snoc, mem_append, mem_singleton]
    rcases h with h | h
    · exact .inl (hvalid.known o (.inl (by simpa using h)))
    · rcases mem_cons.mp h with rfl | h
      · exact .inr rfl
      · exact .inl (hvalid.known o (.inr h))

theorem valid_wake (h : step s (.wake op) = some s') : Valid s' := by
  simp only [step] at h
  split_ifs at h with hwaking
  cases h
  refine ⟨?_, ?_, ?_, ?_, ?_, ?_⟩
  · simpa [State.put] using hvalid.tailOps
  · simpa [State.put] using hvalid.frontOps
  · simpa using hvalid.nodup
  · intro o front h
    simpa [State.put] using hvalid.done o front (by simpa using h)
  · simp only [State.put, length_append, length_singleton, hvalid.count]
    omega
  · intro o h
    simp only [frontedOps_snoc, append_nil]
    rcases h with h | h
    · rcases mem_append.mp h with h | h
      · exact hvalid.known o (.inl h)
      · cases mem_singleton.mp h
        exact hvalid.known op (.inr hwaking)
    · exact hvalid.known o (.inr (mem_of_mem_erase h))

theorem valid_shutdown (h : step s .shutdown = some s') : Valid s' := by
  cases h
  refine ⟨?_, hvalid.frontOps, hvalid.nodup, hvalid.done, ?_, hvalid.known⟩
  · simpa [State.put] using hvalid.tailOps
  · simp only [State.put, length_append, length_singleton, hvalid.count]
    omega

theorem valid_drainCount {frontEmpty : Bool}
    (h : step s (.drainCount frontEmpty) = some s') : Valid s' := by
  simp only [step] at h
  split_ifs at h
  · cases h
    refine ⟨?_, ?_, ?_, ?_, hvalid.count, ?_⟩
    · simpa using hvalid.tailOps
    · simpa using hvalid.frontOps
    · simpa using hvalid.nodup
    · intro o front h
      simpa using hvalid.done o front (by simpa using h)
    · intro o h
      simpa using hvalid.known o (by simpa using h)
  · cases h
    exact ⟨hvalid.tailOps, hvalid.frontOps, hvalid.nodup, hvalid.done, hvalid.count, hvalid.known⟩

theorem valid_look (h : step s .look = some s') : Valid s' := by
  simp only [step] at h
  split at h
  · rename_i hworker hfront
    cases h
    have hcount := hvalid.count
    rw [hworker] at hcount
    refine ⟨hvalid.tailOps, hvalid.frontOps, hvalid.nodup, ?_, hcount, hvalid.known⟩
    intro o front h
    simpa [hworker] using hvalid.done o front h
  · rename_i op rest hworker hfront
    cases h
    have hcount := hvalid.count
    rw [hworker] at hcount
    refine ⟨?_, ?_, ?_, ?_, hcount, ?_⟩
    · simpa using hvalid.tailOps
    · simpa [hfront] using hvalid.frontOps
    · simpa using hvalid.nodup
    · intro o front h
      rcases mem_append.mp h with h | h
      · left
        simpa [hworker] using hvalid.done o front h
      · cases mem_singleton.mp h
        exact .inr rfl
    · intro o h
      simpa using hvalid.known o (by simpa using h)
  · cases h

theorem valid_get (h : step s .get = some s') : Valid s' := by
  simp only [step] at h
  have hcount := hvalid.count
  have htail := hvalid.tailOps
  -- Whatever the item is, the worker had no operation in hand.
  have hdone : s.worker = .getting →
      ∀ op front, .started op front ∈ s.log → .resolved op ∈ s.log := by
    intro hworker op front h
    simpa [hworker] using hvalid.done op front h
  split at h
  · rename_i op rest hworker htail'
    cases h
    rw [hworker, htail', length_cons] at hcount
    rw [htail'] at htail
    refine ⟨?_, ?_, ?_, ?_, hcount, ?_⟩
    · simpa using htail
    · simpa using hvalid.frontOps
    · simpa using hvalid.nodup
    · intro o front h
      rcases mem_append.mp h with h | h
      · left
        simpa using hdone hworker o front h
      · cases mem_singleton.mp h
        exact .inr rfl
    · intro o h
      simpa using hvalid.known o (by simpa using h)
  · rename_i rest hworker htail'
    cases h
    rw [hworker, htail', length_cons] at hcount
    rw [htail'] at htail
    exact ⟨by simpa using htail, hvalid.frontOps, hvalid.nodup,
      fun o front h => .inl (hdone hworker o front h), hcount, hvalid.known⟩
  · rename_i rest hworker htail'
    cases h
    rw [hworker, htail', length_cons] at hcount
    rw [htail'] at htail
    exact ⟨by simpa using htail, hvalid.frontOps, hvalid.nodup,
      fun o front h => .inl (hdone hworker o front h), hcount, hvalid.known⟩
  · cases h

theorem valid_finish (h : step s .finish = some s') : Valid s' := by
  simp only [step] at h
  split at h
  · rename_i op front hworker
    cases h
    have hcount := hvalid.count
    rw [hworker] at hcount
    refine ⟨?_, ?_, ?_, ?_, ?_, ?_⟩
    · simpa using hvalid.tailOps
    · simpa using hvalid.frontOps
    · simpa using hvalid.nodup
    · intro o fr h
      rcases hvalid.done o fr (by simpa using h) with hres | hrun
      · exact .inl (mem_append_left _ hres)
      · rw [hworker] at hrun
        cases hrun
        exact .inl (mem_append_right _ mem_cons_self)
    · cases front <;> exact hcount
    · intro o h
      simpa using hvalid.known o (by simpa using h)
  · cases h

theorem valid_settle (h : step s .settle = some s') : Valid s' := by
  simp only [step] at h
  split at h
  · rename_i hworker
    cases h
    have hcount := hvalid.count
    rw [hworker] at hcount
    refine ⟨hvalid.tailOps, hvalid.frontOps, hvalid.nodup, ?_, ?_, hvalid.known⟩
    · intro o front h
      simpa [hworker] using hvalid.done o front h
    · rw [hcount]
      rfl
  · cases h

theorem valid_step (a : Act ω) (h : step s a = some s') : Valid s' := by
  cases a with
  | submit op => exact valid_submit hvalid h
  | putFront op => exact valid_putFront hvalid h
  | wake op => exact valid_wake hvalid h
  | shutdown => exact valid_shutdown hvalid h
  | drainLook =>
    cases h
    exact ⟨hvalid.tailOps, hvalid.frontOps, hvalid.nodup, hvalid.done, hvalid.count, hvalid.known⟩
  | drainCount frontEmpty => exact valid_drainCount hvalid h
  | look => exact valid_look hvalid h
  | get => exact valid_get hvalid h
  | finish => exact valid_finish hvalid h
  | settle => exact valid_settle hvalid h

end

end Steps

/-! ## Runs -/

variable {s : State ω}

theorem inOrder_of_valid (hvalid : Valid s) : InOrder s where
  once := by
    have hnodup := hvalid.nodup
    rw [hvalid.tailOps, hvalid.frontOps] at hnodup
    have hsub := (sublist_append_left (startedOps false s.log) (itemOps s.tail)).append
      (sublist_append_left (startedOps true s.log) s.front)
    exact hsub.nodup hnodup
  fifo := by
    rw [hvalid.tailOps]
    exact prefix_append _ _

/-- There are no operations behind a sentinel. -/
def OpsFirst : List (Item ω) → Prop
  | [] => True
  | .sentinel :: items => itemOps items = []
  | _ :: items => OpsFirst items

variable {items : List (Item ω)}

theorem opsFirst_snoc_op (hopen : .sentinel ∉ items) (op : ω) : OpsFirst (items ++ [.op op]) := by
  induction items with
  | nil => trivial
  | cons item items ih =>
    rw [mem_cons, not_or] at hopen
    cases item with
    | op o => exact ih hopen.2
    | noOp => exact ih hopen.2
    | sentinel => exact absurd rfl hopen.1

theorem opsFirst_snoc (hfirst : OpsFirst items) {item : Item ω} (hitem : itemOps [item] = []) :
    OpsFirst (items ++ [item]) := by
  induction items with
  | nil =>
    cases item with
    | op o => trivial
    | noOp => trivial
    | sentinel => rfl
  | cons head items ih =>
    cases head with
    | op o => exact ih hfirst
    | noOp => exact ih hfirst
    | sentinel =>
      change itemOps items = [] at hfirst
      change itemOps (items ++ [item]) = []
      unfold itemOps at hitem hfirst ⊢
      rw [filterMap_append, hitem, hfirst]
      rfl

theorem opsFirst_of_itemOps (hitems : itemOps items = []) : OpsFirst items := by
  induction items with
  | nil => trivial
  | cons item items ih =>
    cases item with
    | op o => cases hitems
    | noOp => exact ih hitems
    | sentinel => exact hitems

/-- Nothing that the worker gets next from a queue is an operation or the sentinel. -/
def Harmless (items : List (Item ω)) : Prop := items.head? = none ∨ items.head? = some .noOp

theorem harmless_snoc (hne : items ≠ []) (item : Item ω) :
    Harmless (items ++ [item]) ↔ Harmless items := by
  unfold Harmless
  rw [head?_append_of_ne_nil _ hne]

/-- What holds besides in a run of guarded steps. -/
structure Kept (s : State ω) : Prop where
  valid : Valid s
  /-- A worker that gets an operation or the sentinel has left no front operation behind. -/
  woken : s.worker = .getting → s.front ≠ [] → Harmless s.tail
  opsFirst : OpsFirst s.tail
  running : s.stopping = false → .sentinel ∉ s.tail ∧ s.worker ≠ .exited
  closed : s.worker = .exited → itemOps s.tail = [] ∧ s.front = []
  frontFirst : EachTime (fun past e => ∀ op, e = .started op false →
    ∀ f, .returned f ∈ past → .started f true ∈ past) s.log
  drained : EachTime (fun past e => e = .drained →
    ∀ op, .submitted op ∈ past ∨ .fronted op ∈ past → .resolved op ∈ past) s.log

theorem kept_new : Kept (new : State ω) where
  valid := valid_new
  woken := by
    intro h
    cases h
  opsFirst := trivial
  running := fun _ => ⟨by simp [new], by simp [new]⟩
  closed := by
    intro h
    cases h
  frontFirst := eachTime_nil
  drained := eachTime_nil

/-- A step whose event is no start of a tail operation and no return of `drain` keeps the
properties of the history. -/
theorem Kept.history (hkept : Kept s) {e : Event ω} (hstart : ∀ op, e ≠ .started op false)
    (hdrain : e ≠ .drained) :
    EachTime (fun past e => ∀ op, e = .started op false →
      ∀ f, .returned f ∈ past → .started f true ∈ past) (s.log ++ [e]) ∧
    EachTime (fun past e => e = .drained →
      ∀ op, .submitted op ∈ past ∨ .fronted op ∈ past → .resolved op ∈ past) (s.log ++ [e]) :=
  ⟨eachTime_snoc.mpr ⟨hkept.frontFirst, fun op h => absurd h (hstart op)⟩,
    eachTime_snoc.mpr ⟨hkept.drained, fun h => absurd h hdrain⟩⟩

/-- Nothing is queued or executed when `drain` counts no task and there is no front operation. -/
theorem Valid.idle (hvalid : Valid s) (hcount : s.unfinished = 0) (hfront : s.front = [])
    (hrunning : s.worker.runsFront = false) :
    ∀ op, .submitted op ∈ s.log ∨ .fronted op ∈ s.log → .resolved op ∈ s.log := by
  have htasks := hvalid.count
  rw [hcount] at htasks
  have htail : s.tail = [] := length_eq_zero_iff.mp (by omega)
  have hheld : s.worker.held = 0 := by omega
  have hidle : ∀ op front, s.worker ≠ .running op front := by
    intro op front hworker
    rw [hworker] at hrunning hheld
    cases hrunning
    cases hheld
  have hresolved : ∀ op front, op ∈ startedOps front s.log → .resolved op ∈ s.log := by
    intro op front h
    exact (hvalid.done op front (mem_startedOps.mp h)).resolve_right (hidle op front)
  intro op h
  rcases h with h | h
  · apply hresolved op false
    rw [← mem_submittedOps, hvalid.tailOps, htail] at h
    simpa [itemOps] using h
  · apply hresolved op true
    rw [← mem_frontedOps, hvalid.frontOps, hfront, append_nil] at h
    exact h

section Guards

variable [DecidableEq ω] {s s' : State ω}

variable {op : ω}

section

variable (hkept : Kept s)
include hkept

theorem kept_submit (hok : Guarded s (.submit op))
    (h : step s (.submit op) = some s') : Kept s' := by
  have hvalid := valid_step hkept.valid _ h
  obtain ⟨hstopping, hcovered⟩ := hok
  obtain ⟨hsentinel, hworker⟩ := hkept.running hstopping
  have hhistory := hkept.history (e := .submitted op) (by simp) (by simp)
  simp only [step] at h
  split_ifs at h
  cases h
  refine ⟨hvalid, ?_, opsFirst_snoc_op hsentinel op, ?_, ?_, hhistory.1, hhistory.2⟩
  · intro hgetting hfront
    by_cases htail : s.tail = []
    · exact absurd (hcovered hgetting htail) hfront
    · exact (harmless_snoc htail _).mpr (hkept.woken hgetting hfront)
  · exact fun _ => ⟨by simp [State.put, hsentinel], hworker⟩
  · exact fun hexited => absurd hexited hworker

theorem kept_putFront (hok : Guarded s (.putFront op))
    (h : step s (.putFront op) = some s') : Kept s' := by
  have hvalid := valid_step hkept.valid _ h
  have hhistory := hkept.history (e := .fronted op) (by simp) (by simp)
  simp only [step] at h
  split_ifs at h
  cases h
  exact ⟨hvalid, fun hgetting _ => hok.2 hgetting, hkept.opsFirst, hkept.running,
    fun hexited => absurd hexited hok.1, hhistory.1, hhistory.2⟩

theorem kept_wake (h : step s (.wake op) = some s') : Kept s' := by
  have hvalid := valid_step hkept.valid _ h
  have hhistory := hkept.history (e := .returned op) (by simp) (by simp)
  simp only [step] at h
  split_ifs at h
  cases h
  refine ⟨hvalid, ?_, opsFirst_snoc hkept.opsFirst rfl, ?_, ?_, hhistory.1, hhistory.2⟩
  · intro hgetting hfront
    by_cases htail : s.tail = []
    · right
      simp [State.put, htail]
    · exact (harmless_snoc htail _).mpr (hkept.woken hgetting hfront)
  · intro hstopping
    obtain ⟨hsentinel, hworker⟩ := hkept.running hstopping
    exact ⟨by simp [State.put, hsentinel], hworker⟩
  · intro hexited
    simpa [State.put] using hkept.closed hexited

theorem kept_shutdown (hok : Guarded s .shutdown) (h : step s .shutdown = some s') : Kept s' := by
  have hvalid := valid_step hkept.valid _ h
  cases h
  refine ⟨hvalid, ?_, opsFirst_snoc hkept.opsFirst rfl, ?_, ?_, hkept.frontFirst, hkept.drained⟩
  · intro hgetting hfront
    by_cases htail : s.tail = []
    · exact absurd (hok hgetting htail) hfront
    · exact (harmless_snoc htail _).mpr (hkept.woken hgetting hfront)
  · intro hstopping
    cases hstopping
  · intro hexited
    simpa [State.put] using hkept.closed hexited

theorem kept_drainCount {frontEmpty : Bool} (hok : Guarded s (.drainCount frontEmpty))
    (h : step s (.drainCount frontEmpty) = some s') : Kept s' := by
  have hvalid := valid_step hkept.valid _ h
  simp only [step] at h
  split_ifs at h with hmem hdrained
  · cases h
    obtain ⟨hfront, hrunning⟩ := hok hdrained.1 hdrained.2
    refine ⟨hvalid, hkept.woken, hkept.opsFirst, hkept.running, hkept.closed, ?_, ?_⟩
    · exact eachTime_snoc.mpr ⟨hkept.frontFirst, fun op h => by cases h⟩
    · exact eachTime_snoc.mpr
        ⟨hkept.drained, fun _ => hkept.valid.idle hdrained.2 hfront hrunning⟩
  · cases h
    exact ⟨hvalid, hkept.woken, hkept.opsFirst, hkept.running, hkept.closed, hkept.frontFirst,
      hkept.drained⟩

theorem kept_look (h : step s .look = some s') : Kept s' := by
  have hvalid := valid_step hkept.valid _ h
  simp only [step] at h
  split at h
  · rename_i hworker hfront
    cases h
    refine ⟨hvalid, fun _ hne => absurd hfront hne, hkept.opsFirst, ?_, ?_, hkept.frontFirst,
      hkept.drained⟩
    · exact fun hstopping => ⟨(hkept.running hstopping).1, by simp⟩
    · intro hexited
      cases hexited
  · rename_i op rest hworker hfront
    cases h
    have hhistory := hkept.history (e := .started op true) (by simp) (by simp)
    refine ⟨hvalid, ?_, hkept.opsFirst, ?_, ?_, hhistory.1, hhistory.2⟩
    · intro hgetting
      cases hgetting
    · exact fun hstopping => ⟨(hkept.running hstopping).1, by simp⟩
    · intro hexited
      cases hexited
  · cases h

theorem kept_get (h : step s .get = some s') : Kept s' := by
  have hvalid := valid_step hkept.valid _ h
  have hfirst := hkept.opsFirst
  have hwoken := hkept.woken
  simp only [step] at h
  split at h
  · rename_i op rest hworker htail
    cases h
    have hfront : s.front = [] := by
      by_contra hne
      have := hwoken hworker hne
      simp [Harmless, htail] at this
    rw [htail] at hfirst
    refine ⟨hvalid, ?_, hfirst, ?_, ?_, ?_, ?_⟩
    · intro hgetting
      cases hgetting
    · intro hstopping
      have := (hkept.running hstopping).1
      rw [htail, mem_cons, not_or] at this
      exact ⟨this.2, by simp⟩
    · intro hexited
      cases hexited
    · -- The front buffer is empty, so the front operations that have returned have been started.
      refine eachTime_snoc.mpr ⟨hkept.frontFirst, fun o _ f hf => ?_⟩
      have hmem := hkept.valid.known f (.inl hf)
      rw [hkept.valid.frontOps, hfront, append_nil] at hmem
      exact mem_startedOps.mp hmem
    · exact eachTime_snoc.mpr ⟨hkept.drained, fun h => by cases h⟩
  · rename_i rest hworker htail
    cases h
    rw [htail] at hfirst
    refine ⟨hvalid, ?_, hfirst, ?_, ?_, hkept.frontFirst, hkept.drained⟩
    · intro hgetting
      cases hgetting
    · intro hstopping
      have := (hkept.running hstopping).1
      rw [htail, mem_cons, not_or] at this
      exact ⟨this.2, by simp⟩
    · intro hexited
      cases hexited
  · rename_i rest hworker htail
    cases h
    have hfront : s.front = [] := by
      by_contra hne
      have := hwoken hworker hne
      simp [Harmless, htail] at this
    rw [htail] at hfirst
    refine ⟨hvalid, ?_, opsFirst_of_itemOps hfirst, ?_, fun _ => ⟨hfirst, hfront⟩,
      hkept.frontFirst, hkept.drained⟩
    · intro hgetting
      cases hgetting
    · intro hstopping
      have := (hkept.running hstopping).1
      rw [htail] at this
      exact absurd mem_cons_self this
  · cases h

theorem kept_finish (h : step s .finish = some s') : Kept s' := by
  have hvalid := valid_step hkept.valid _ h
  simp only [step] at h
  split at h
  · rename_i op front hworker
    cases h
    have hhistory := hkept.history (e := .resolved op) (by simp) (by simp)
    refine ⟨hvalid, ?_, hkept.opsFirst, ?_, ?_, hhistory.1, hhistory.2⟩
    · cases front <;> simp
    · intro hstopping
      refine ⟨(hkept.running hstopping).1, ?_⟩
      cases front <;> simp
    · cases front <;> simp
  · cases h

theorem kept_settle (h : step s .settle = some s') : Kept s' := by
  have hvalid := valid_step hkept.valid _ h
  simp only [step] at h
  split at h
  · cases h
    refine ⟨hvalid, by simp, hkept.opsFirst, ?_, by simp, hkept.frontFirst, hkept.drained⟩
    exact fun hstopping => ⟨(hkept.running hstopping).1, by simp⟩
  · cases h

theorem kept_step {a : Act ω} (hok : Guarded s a) (h : step s a = some s') : Kept s' := by
  cases a with
  | submit op => exact kept_submit hkept hok h
  | putFront op => exact kept_putFront hkept hok h
  | wake op => exact kept_wake hkept h
  | shutdown => exact kept_shutdown hkept hok h
  | drainLook =>
    have hvalid := valid_step hkept.valid _ h
    cases h
    exact ⟨hvalid, hkept.woken, hkept.opsFirst, hkept.running, hkept.closed, hkept.frontFirst,
      hkept.drained⟩
  | drainCount frontEmpty => exact kept_drainCount hkept hok h
  | look => exact kept_look hkept h
  | get => exact kept_get hkept h
  | finish => exact kept_finish hkept h
  | settle => exact kept_settle hkept h

omit [DecidableEq ω] in
theorem losesNothing_of_kept : LosesNothing s where
  toInOrder := inOrder_of_valid hkept.valid
  frontFirst := hkept.frontFirst
  resolved := by
    intro hexited op hop
    obtain ⟨htail, hfront⟩ := hkept.closed hexited
    have hvalid := hkept.valid
    have hresolved : ∀ front, op ∈ startedOps front s.log → .resolved op ∈ s.log := by
      intro front h
      apply (hvalid.done op front (mem_startedOps.mp h)).resolve_right
      simp [hexited]
    rcases hop with hop | hop
    · apply hresolved false
      rw [← mem_submittedOps, hvalid.tailOps, htail, append_nil] at hop
      exact hop
    · apply hresolved true
      have hmem := hvalid.known op (.inl hop)
      rw [hvalid.frontOps, hfront, append_nil] at hmem
      exact hmem
  drained := hkept.drained

end

/-- In every run operations are executed at most once, and those of the tail in the order of their
submission.  In a run of guarded steps no operation is lost. -/
theorem pipeline_loses_nothing (ω : Type) [DecidableEq ω] :
    (∀ s : State ω, Reaches step Always new s → InOrder s) ∧
      ∀ s : State ω, Reaches step Guarded new s → LosesNothing s := by
  constructor
  · intro s hs
    apply inOrder_of_valid
    exact hs.invariant valid_new fun _ a _ hvalid _ h => valid_step hvalid a h
  · intro s hs
    apply losesNothing_of_kept
    exact hs.invariant kept_new fun _ _ _ hkept hok h => kept_step hkept hok h

/-- A front operation overtakes a tail operation, `drain` returns, and the worker exits. -/
theorem pipeline_loses_nothing_tail_and_front :
    ∃ s : State Nat, Reaches step Guarded new s ∧ s.worker = .exited ∧ .submitted 0 ∈ s.log ∧
      .returned 1 ∈ s.log ∧ .drained ∈ s.log ∧ LosesNothing s := by
  have hrun : ∃ s : State Nat, Reaches step Guarded new s ∧ s.worker = .exited ∧
      .submitted 0 ∈ s.log ∧ .returned 1 ∈ s.log ∧ .drained ∈ s.log := by
    apply exists_reaches [.submit 0, .putFront 1, .look, .wake 1, .finish, .look, .get, .finish,
      .settle, .look, .get, .settle, .drainLook, .drainCount true, .look, .shutdown, .get]
    decide
  obtain ⟨s, hs, hworker, hsubmitted, hreturned, hdrained⟩ := hrun
  exact ⟨s, hs, hworker, hsubmitted, hreturned, hdrained, (pipeline_loses_nothing Nat).2 s hs⟩

/-- An operation that is submitted behind the sentinel is never executed; `drain` returns while a
front operation is executed; a tail operation is started while a front operation waits. -/
theorem pipeline_loses_late_operation :
    (∃ s : State Nat, Reaches step Always new s ∧ s.worker = .exited ∧ .submitted 0 ∈ s.log ∧
      .resolved 0 ∉ s.log) ∧
    (∃ s : State Nat, Reaches step Always new s ∧ .drained ∈ s.log ∧ .returned 0 ∈ s.log ∧
      .resolved 0 ∉ s.log) ∧ ∃ s : State Nat, Reaches step Always new s ∧
      s.log = [.submitted 0, .fronted 1, .returned 1, .started 0 false] := by
  refine ⟨?_, ?_, ?_⟩
  · apply exists_reaches [.drainLook, .drainCount true, .shutdown, .submit 0, .look, .get]
    decide
  · apply exists_reaches
      [.look, .putFront 0, .wake 0, .get, .settle, .look, .drainLook, .drainCount true]
    decide
  · apply exists_reaches [.submit 0, .look, .putFront 1, .wake 1, .get]
    decide

end Guards

end ArcticPlatform.SemiPersistence.Pipeline
