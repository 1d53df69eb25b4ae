import ArcticPlatform.Library.Runs
import Mathlib.Data.Int.Cast.Basic
import Mathlib.Data.List.Nodup
import Mathlib.Order.Basic

/-!
# Bookkeeping of the demuxer

Threads send commands to the worker of an instance and wait until it is idle; the demuxer counts
commands that are sent and handles their results.  A command is put on the queue first and counted
afterwards, so its result can be handled in between; results may come in any order.  A step is one
access to the queue or one section under `_pending_cv`.

Main results:

- Theorem `Inv.step`: what the bookkeeping keeps when results are handled in the order of the
  records.
- Theorem `demuxer_sound`: the state and the history of every such run.
-/

namespace ArcticPlatform.SemiPersistence.Demuxer

open Runs List Function

/-- What happens. -/
inductive Event (τ κ ε : Type) where
  /-- A thread has put a command on the queue. -/
  | put (id : Nat) (thread : τ)
  /-- The result of a command has been applied, if it has no error. -/
  | applied (id : Nat)
  /-- The command is taken off the count. -/
  | settled (cmd : κ) (error : Option ε)
  /-- `wait_idle` has returned, or raised an error. -/
  | waited (thread : τ) (raised : Option (κ × ε))
  deriving DecidableEq

/-- The demuxer, the threads that send, and the commands; a command is named by its position. -/
structure State (τ κ ε : Type) where
  sends : List (τ × κ)
  /-- The command between the two steps of `_send`. -/
  sending : τ → Option Nat
  recorded : List Nat
  applied : List Nat
  settled : List Nat
  /-- The result in `_handle` that has been applied. -/
  handling : Option (Nat × Option ε)
  pendingCount : Int
  pendingCmds : List κ
  latchedError : Option (κ × ε)
  log : List (Event τ κ ε)

variable {τ κ ε : Type} [DecidableEq τ]

/-- A new demuxer. -/
def init : State τ κ ε := ⟨[], fun _ => none, [], [], [], none, 0, [], none, []⟩

/-- A step of a thread or of the demuxer. -/
inductive Act (τ κ ε : Type) where
  /-- `self._cmd_queue.put((cmd, kwargs))` -/
  | put (thread : τ) (cmd : κ)
  /-- `notify_send` -/
  | notifySend (thread : τ)
  /-- The head of `_handle`, for the result of a command. -/
  | apply (id : Nat) (error : Option ε)
  /-- The rest of `_handle`. -/
  | settle
  /-- The end of `wait_idle`. -/
  | waitIdle (thread : τ)

/-- The steps. -/
def step (s : State τ κ ε) : Act τ κ ε → Option (State τ κ ε)
  | .put thread cmd =>
    if s.sending thread = none then
      some { s with
        sends := s.sends ++ [(thread, cmd)]
        sending := Function.update s.sending thread (some s.sends.length)
        log := s.log ++ [.put s.sends.length thread] }
    else none
  | .notifySend thread => do
    let id ← s.sending thread
    let send ← s.sends[id]?
    some { s with
      sending := Function.update s.sending thread none
      recorded := s.recorded ++ [id]
      pendingCount := s.pendingCount + 1
      pendingCmds := s.pendingCmds ++ [send.2] }
  | .apply id error =>
    if s.handling = none ∧ id < s.sends.length ∧ id ∉ s.applied then
      some { s with
        handling := some (id, error)
        applied := s.applied ++ [id]
        log := s.log ++ [.applied id] }
    else none
  | .settle => do
    let (id, error) ← s.handling
    let send ← s.sends[id]?
    some { s with
      handling := none
      settled := s.settled ++ [id]
      pendingCount := s.pendingCount - 1
      pendingCmds := s.pendingCmds.tail
      latchedError := match error, s.latchedError with
        | some e, none => some (send.2, e)
        | _, latched => latched
      log := s.log ++ [.settled send.2 error] }
  | .waitIdle thread =>
    if s.sending thread = none ∧ s.pendingCount ≤ 0 then
      some { s with
        latchedError := none
        log := s.log ++ [.waited thread s.latchedError] }
    else none

/-! ## What the bookkeeping owes -/

/-- The name of a command. -/
def State.cmdOf (s : State τ κ ε) (id : Nat) : Option κ := s.sends[id]?.map Prod.snd

/-- The commands that are sent and whose results are not handled. -/
def State.unhandled (s : State τ κ ε) : List Nat :=
  (range s.sends.length).filter (· ∉ s.settled)

/-- The error of a result. -/
def Event.error? : Event τ κ ε → Option (κ × ε)
  | .settled cmd (some e) => some (cmd, e)
  | _ => none

/-- The events of a batch: those since the last return of `wait_idle`. -/
def batch (log : List (Event τ κ ε)) : List (Event τ κ ε) :=
  log.foldl (fun events e => match e with
    | .waited _ _ => []
    | _ => events ++ [e]) []

/-- A return of `wait_idle` is after the results of all commands that its caller has sent, and
raises the first error of the batch it ends. -/
def Allowed (past : List (Event τ κ ε)) : Event τ κ ε → Prop
  | .waited thread raised =>
    (∀ id, .put id thread ∈ past → .applied id ∈ past) ∧ raised = (batch past).findSome? Event.error?
  | _ => True

/-- The count and the pending commands are those of the commands in flight, and the returns of
`wait_idle` are allowed. -/
structure Sound (s : State τ κ ε) : Prop where
  nonneg : 0 ≤ s.pendingCount
  count : (∀ thread, s.sending thread = none) → s.pendingCount = s.unhandled.length
  cmds : (∀ thread, s.sending thread = none) →
    (s.pendingCmds.map some).Perm (s.unhandled.map s.cmdOf)
  waits : EachTime Allowed s.log

/-- A result is handled after its command has been recorded, and when the pending command in front
has its name. -/
def InOrder (s : State τ κ ε) : Act τ κ ε → Prop
  | .settle => ∀ result ∈ s.handling, result.1 ∈ s.recorded ∧ s.pendingCmds.head? = s.cmdOf result.1
  | _ => True

/-! ## The invariant -/

/-- The commands that are counted. -/
def State.outstanding (s : State τ κ ε) : List Nat := s.recorded.filter (· ∉ s.settled)

/-- What holds between the steps. -/
structure Inv (s : State τ κ ε) : Prop where
  nodup : s.recorded.Nodup
  known : ∀ id ∈ s.recorded, id < s.sends.length
  between : ∀ thread id, s.sending thread = some id →
    id ∉ s.recorded ∧ s.sends[id]?.map Prod.fst = some thread
  covered : ∀ id < s.sends.length, id ∈ s.recorded ∨ ∃ thread, s.sending thread = some id
  settled_recorded : ∀ id ∈ s.settled, id ∈ s.recorded
  settled_applied : ∀ id ∈ s.settled, id ∈ s.applied
  handling : ∀ result ∈ s.handling, result.1 ∈ s.applied ∧ result.1 ∉ s.settled
  count : s.pendingCount = s.outstanding.length
  cmds : (s.pendingCmds.map some).Perm (s.outstanding.map s.cmdOf)
  latched : s.latchedError = (batch s.log).findSome? Event.error?
  logged_put : ∀ id thread, .put id thread ∈ s.log → s.sends[id]?.map Prod.fst = some thread
  logged_applied : ∀ id ∈ s.applied, .applied id ∈ s.log
  allowed : EachTime Allowed s.log

section Steps

variable {s s' : State τ κ ε}

section

omit [DecidableEq τ]

theorem batch_snoc (log : List (Event τ κ ε)) (e : Event τ κ ε) (h : ∀ thread raised,
    e ≠ .waited thread raised) : batch (log ++ [e]) = batch log ++ [e] := by
  rw [batch, foldl_append]
  cases e with
  | waited thread raised => exact absurd rfl (h thread raised)
  | put | applied | settled => rfl

theorem batch_waited (log : List (Event τ κ ε)) (thread : τ) (raised : Option (κ × ε)) :
    batch (log ++ [.waited thread raised]) = [] := by
  rw [batch, foldl_append]
  rfl

theorem firstError_snoc {log : List (Event τ κ ε)} {e : Event τ κ ε}
    (h : ∀ thread raised, e ≠ .waited thread raised) (hnone : e.error? = none) :
    (batch (log ++ [e])).findSome? Event.error? = (batch log).findSome? Event.error? := by
  rw [batch_snoc log e h, findSome?_append]
  simp [hnone]

theorem outstanding_settle {recorded settled : List Nat} {id : Nat} (hnodup : recorded.Nodup)
    (hrecorded : id ∈ recorded) (hsettled : id ∉ settled) :
    (recorded.filter (· ∉ settled)).Perm (id :: recorded.filter (· ∉ settled ++ [id])) := by
  have hmem : id ∈ recorded.filter (· ∉ settled) := by simp [hrecorded, hsettled]
  have hrest : recorded.filter (· ∉ settled ++ [id]) = (recorded.filter (· ∉ settled)).erase id := by
    rw [Nodup.erase_eq_filter (Nodup.filter _ hnodup), filter_filter]
    apply filter_congr
    intro x _
    by_cases hx : x ∈ settled <;> by_cases hid : x = id <;> simp [hx, hid, hsettled]
  rw [hrest]
  exact perm_cons_erase hmem

theorem inv_init : Inv (init : State τ κ ε) := by
  constructor <;> simp [init, State.outstanding, batch, eachTime_nil]

end

variable {thread : τ}

theorem Inv.put (h : Inv s) {cmd : κ} (hstep : step s (.put thread cmd) = some s') : Inv s' := by
  simp only [step] at hstep
  split_ifs at hstep with hidle
  cases hstep
  have hget : ∀ id < s.sends.length, (s.sends ++ [(thread, cmd)])[id]? = s.sends[id]? :=
    fun id hid => getElem?_append_left hid
  have hlt : ∀ id other, s.sends[id]?.map Prod.fst = some other → id < s.sends.length := by
    intro id other hsome
    obtain ⟨send, hsend, -⟩ := Option.map_eq_some_iff.mp hsome
    exact (List.getElem?_eq_some_iff.mp hsend).1
  constructor
  · exact h.nodup
  · intro id hid
    have := h.known id hid
    simp only [length_append, length_singleton]
    omega
  · intro other id hid
    dsimp only at hid ⊢
    by_cases hsame : other = thread
    · subst hsame
      rw [update_self, Option.some.injEq] at hid
      subst hid
      exact ⟨fun hmem => absurd (h.known _ hmem) (lt_irrefl _), by simp⟩
    · rw [update_of_ne hsame] at hid
      obtain ⟨hnot, howner⟩ := h.between other id hid
      exact ⟨hnot, by rwa [hget id (hlt id other howner)]⟩
  · intro id hid
    dsimp only at hid ⊢
    rw [length_append, length_singleton, Nat.lt_succ_iff_lt_or_eq] at hid
    rcases hid with hid | rfl
    · rcases h.covered id hid with hrec | ⟨other, hother⟩
      · exact .inl hrec
      · refine .inr ⟨other, ?_⟩
        rwa [update_of_ne]
        rintro rfl
        rw [hidle] at hother
        cases hother
    · exact .inr ⟨thread, update_self _ _ _⟩
  · exact h.settled_recorded
  · exact h.settled_applied
  · exact h.handling
  · exact h.count
  · refine h.cmds.trans (Perm.of_eq (map_congr_left fun id hid => ?_))
    have hrec := h.known id (mem_of_mem_filter hid)
    simp only [State.cmdOf, hget id hrec]
  · rw [firstError_snoc (by simp) rfl]
    exact h.latched
  · intro id other hmem
    rcases mem_append.mp hmem with hmem | hmem
    · have howner := h.logged_put id other hmem
      dsimp only
      rwa [hget id (hlt id other howner)]
    · cases mem_singleton.mp hmem
      simp
  · exact fun id hid => mem_append_left _ (h.logged_applied id hid)
  · exact eachTime_snoc.mpr ⟨h.allowed, trivial⟩

theorem Inv.notifySend (h : Inv s) (hstep : step s (.notifySend thread) = some s') : Inv s' := by
  obtain ⟨id, hid, hstep⟩ := Option.bind_eq_some_iff.mp hstep
  obtain ⟨send, hsend, hstep⟩ := Option.bind_eq_some_iff.mp hstep
  cases hstep
  obtain ⟨hnot, howner⟩ := h.between thread id hid
  have hsettled : id ∉ s.settled := fun hmem => hnot (h.settled_recorded id hmem)
  have houtstanding : (s.recorded ++ [id]).filter (· ∉ s.settled) = s.outstanding ++ [id] := by
    rw [filter_append, State.outstanding]
    simp [hsettled]
  constructor
  · exact nodup_append.mpr ⟨h.nodup, nodup_singleton id, by
      intro a ha b hb hab
      rw [mem_singleton.mp hb] at hab
      exact hnot (hab ▸ ha)⟩
  · intro id' hid'
    rcases mem_append.mp hid' with hmem | hmem
    · exact h.known id' hmem
    · rw [mem_singleton.mp hmem]
      exact (List.getElem?_eq_some_iff.mp hsend).1
  · intro other id' hother
    dsimp only at hother ⊢
    by_cases hsame : other = thread
    · rw [hsame, update_self] at hother
      cases hother
    · rw [update_of_ne hsame] at hother
      obtain ⟨hnot', howner'⟩ := h.between other id' hother
      refine ⟨fun hmem => ?_, howner'⟩
      rcases mem_append.mp hmem with hmem | hmem
      · exact hnot' hmem
      · rw [mem_singleton.mp hmem, howner] at howner'
        exact hsame (Option.some.inj howner').symm
  · intro id' hlt
    dsimp only
    rcases h.covered id' hlt with hrec | ⟨other, hother⟩
    · exact .inl (mem_append_left _ hrec)
    · by_cases hsame : other = thread
      · rw [hsame, hid] at hother
        cases hother
        exact .inl (mem_append_right _ (mem_singleton_self _))
      · exact .inr ⟨other, by rwa [update_of_ne hsame]⟩
  · exact fun id' hmem => mem_append_left _ (h.settled_recorded id' hmem)
  · exact h.settled_applied
  · exact h.handling
  · simp only [State.outstanding, houtstanding]
    rw [h.count, length_append, length_singleton]
    rfl
  · simp only [State.outstanding, houtstanding]
    rw [map_append, map_append]
    refine h.cmds.append (Perm.of_eq ?_)
    simp [State.cmdOf, hsend]
  · exact h.latched
  · exact h.logged_put
  · exact h.logged_applied
  · exact h.allowed

theorem Inv.apply (h : Inv s) {id : Nat} {error : Option ε}
    (hstep : step s (.apply id error) = some s') : Inv s' := by
  simp only [step] at hstep
  split_ifs at hstep with hfree
  cases hstep
  obtain ⟨-, -, hnew⟩ := hfree
  constructor
  · exact h.nodup
  · exact h.known
  · exact h.between
  · exact h.covered
  · exact h.settled_recorded
  · exact fun id' hid => mem_append_left _ (h.settled_applied id' hid)
  · intro result hresult
    cases hresult
    exact ⟨mem_append_right _ (mem_singleton_self _), fun hmem => hnew (h.settled_applied _ hmem)⟩
  · exact h.count
  · exact h.cmds
  · rw [firstError_snoc (by simp) rfl]
    exact h.latched
  · intro id' thread hmem
    rcases mem_append.mp hmem with hmem | hmem
    · exact h.logged_put id' thread hmem
    · cases mem_singleton.mp hmem
  · intro id' hid
    rcases mem_append.mp hid with hid | hid
    · exact mem_append_left _ (h.logged_applied id' hid)
    · rw [mem_singleton.mp hid]
      exact mem_append_right _ (mem_singleton_self _)
  · exact eachTime_snoc.mpr ⟨h.allowed, trivial⟩

theorem Inv.settle (h : Inv s) (horder : InOrder s .settle) (hstep : step s .settle = some s') :
    Inv s' := by
  obtain ⟨⟨id, error⟩, hhandling, hstep⟩ := Option.bind_eq_some_iff.mp hstep
  obtain ⟨send, hsend, hstep⟩ := Option.bind_eq_some_iff.mp hstep
  obtain ⟨hrecorded, hhead⟩ := horder (id, error) hhandling
  obtain ⟨happlied, hsettled⟩ := h.handling (id, error) hhandling
  dsimp only at hrecorded hhead happlied hsettled
  have hperm := outstanding_settle h.nodup hrecorded hsettled
  cases hstep
  constructor
  · exact h.nodup
  · exact h.known
  · exact h.between
  · exact h.covered
  · intro id' hid
    rcases mem_append.mp hid with hid | hid
    · exact h.settled_recorded id' hid
    · rwa [mem_singleton.mp hid]
  · intro id' hid
    rcases mem_append.mp hid with hid | hid
    · exact h.settled_applied id' hid
    · rwa [mem_singleton.mp hid]
  · exact fun result hresult => absurd hresult (by simp)
  · have hlength := hperm.length_eq
    simp only [State.outstanding]
    rw [h.count, State.outstanding, hlength, length_cons]
    omega
  · -- the front of the pending commands has the name of the one that is taken off
    obtain ⟨cmd, tail, hcmds⟩ : ∃ cmd tail, s.pendingCmds = cmd :: tail := by
      cases hcmds : s.pendingCmds with
      | nil =>
        rw [hcmds, State.cmdOf, hsend] at hhead
        cases hhead
      | cons cmd tail => exact ⟨cmd, tail, rfl⟩
    rw [hcmds, head?_cons] at hhead
    have hbefore := h.cmds
    rw [hcmds, map_cons, hhead] at hbefore
    simp only [hcmds, tail_cons]
    exact Perm.cons_inv (hbefore.trans (hperm.map s.cmdOf))
  · dsimp only
    rw [batch_snoc _ _ (by simp), findSome?_append, ← h.latched]
    cases error with
    | none => cases s.latchedError <;> rfl
    | some e => cases s.latchedError <;> rfl
  · intro id' thread hmem
    rcases mem_append.mp hmem with hmem | hmem
    · exact h.logged_put id' thread hmem
    · cases mem_singleton.mp hmem
  · exact fun id' hid => mem_append_left _ (h.logged_applied id' hid)
  · exact eachTime_snoc.mpr ⟨h.allowed, trivial⟩

theorem Inv.waitIdle (h : Inv s) (hstep : step s (.waitIdle thread) = some s') : Inv s' := by
  simp only [step] at hstep
  split_ifs at hstep with hidle
  obtain ⟨hidle, hzero⟩ := hidle
  cases hstep
  have hnone : s.outstanding = [] := by
    have hcount := h.count
    exact eq_nil_of_length_eq_zero (by omega)
  refine { h with latched := ?_, logged_put := ?_, logged_applied := ?_, allowed := ?_ }
  · rw [batch_waited]
    rfl
  · intro id other hmem
    rcases mem_append.mp hmem with hmem | hmem
    · exact h.logged_put id other hmem
    · cases mem_singleton.mp hmem
  · exact fun id hid => mem_append_left _ (h.logged_applied id hid)
  · refine eachTime_snoc.mpr ⟨h.allowed, ?_, h.latched⟩
    intro id hput
    have howner := h.logged_put id thread hput
    obtain ⟨send, hsend, -⟩ := Option.map_eq_some_iff.mp howner
    have hlt := (List.getElem?_eq_some_iff.mp hsend).1
    have hrecorded : id ∈ s.recorded := by
      rcases h.covered id hlt with hrec | ⟨other, hother⟩
      · exact hrec
      · obtain ⟨-, hother'⟩ := h.between other id hother
        rw [howner] at hother'
        rw [← Option.some.inj hother', hidle] at hother
        cases hother
    by_contra hnot
    have hmem : id ∈ s.outstanding := by
      refine mem_filter.mpr ⟨hrecorded, decide_eq_true fun hsettled => hnot ?_⟩
      exact h.logged_applied id (h.settled_applied id hsettled)
    rw [hnone] at hmem
    cases hmem

/-- What the bookkeeping keeps when results are handled in the order of the records. -/
theorem Inv.step (h : Inv s) {a : Act τ κ ε} (horder : InOrder s a) (hstep : step s a = some s') :
    Inv s' := by
  cases a with
  | put thread cmd => exact h.put hstep
  | notifySend thread => exact h.notifySend hstep
  | apply id error => exact h.apply hstep
  | settle => exact h.settle horder hstep
  | waitIdle thread => exact h.waitIdle hstep

omit [DecidableEq τ] in
theorem Inv.sound (h : Inv s) : Sound s := by
  have hperm : (∀ thread, s.sending thread = none) → s.outstanding.Perm s.unhandled := by
    intro hidle
    refine Perm.filter _ ((perm_ext_iff_of_nodup h.nodup nodup_range).mpr fun id => ?_)
    rw [mem_range]
    constructor
    · exact h.known id
    · intro hlt
      rcases h.covered id hlt with hrec | ⟨thread, hthread⟩
      · exact hrec
      · rw [hidle thread] at hthread
        cases hthread
  constructor
  · rw [h.count]
    exact Int.natCast_nonneg _
  · intro hidle
    rw [h.count, (hperm hidle).length_eq]
  · exact fun hidle => h.cmds.trans ((hperm hidle).map _)
  · exact h.allowed

end Steps

/-- In every run in which results are handled after their commands are recorded, and in the order of
the records as far as names tell, the bookkeeping is sound. -/
theorem demuxer_sound (s : State τ κ ε) (hs : Reaches step InOrder init s) : Sound s :=
  (hs.invariant inv_init fun _ _ _ h horder hstep => h.step horder hstep).sound

instance [DecidableEq κ] (s : State τ κ ε) : ∀ a, Decidable (InOrder s a)
  | .settle => inferInstanceAs (Decidable (∀ result, s.handling = some result → _))
  | .put .. | .notifySend _ | .apply .. | .waitIdle _ => inferInstanceAs (Decidable True)

/-- Two commands in flight, handled one after the other, and an error that is raised. -/
theorem demuxer_sound_error :
    ∃ s : State Nat String String, Reaches step InOrder init s ∧
      s.log = [.put 0 1, .put 1 2, .applied 0, .settled "generate" (some "full"), .applied 1,
        .settled "sleep" none, .waited 1 (some ("generate", "full"))] ∧ Sound s := by
  have hrun : ∃ s : State Nat String String, Reaches step InOrder init s ∧
      s.log = [.put 0 1, .put 1 2, .applied 0, .settled "generate" (some "full"), .applied 1,
        .settled "sleep" none, .waited 1 (some ("generate", "full"))] := by
    apply exists_reaches [.put 1 "generate", .notifySend 1, .put 2 "sleep", .notifySend 2,
      .apply 0 (some "full"), .settle, .apply 1 none, .settle, .waitIdle 1]
    decide
  obtain ⟨s, hs, hlog⟩ := hrun
  exact ⟨s, hs, hlog, demuxer_sound s hs⟩

/-- A result that is handled before its command is recorded makes the count negative, and leaves a
pending command behind when everything has been handled. -/
theorem demuxer_handles_before_record :
    (∃ s : State Unit String String, Reaches step Always init s ∧ s.pendingCount = -1) ∧
      ∃ s : State Unit String String, Reaches step Always init s ∧ s.pendingCount = 0 ∧
        s.pendingCmds = ["sleep"] ∧ s.unhandled = [] ∧ ¬Sound s := by
  constructor
  · apply exists_reaches [.put () "sleep", .apply 0 none, .settle]
    decide
  · have hrun : ∃ s : State Unit String String, Reaches step Always init s ∧
        s.pendingCount = 0 ∧ s.pendingCmds = ["sleep"] ∧ s.unhandled = [] ∧
        s.sending () = none := by
      apply exists_reaches [.put () "sleep", .apply 0 none, .settle, .notifySend ()]
      decide
    obtain ⟨s, hs, hcount, hcmds, hunhandled, hidle⟩ := hrun
    refine ⟨s, hs, hcount, hcmds, hunhandled, fun hsound => ?_⟩
    have hlength := (hsound.cmds fun _ => hidle).length_eq
    rw [hcmds, hunhandled] at hlength
    cases hlength

end ArcticPlatform.SemiPersistence.Demuxer
