import ArcticPlatform.CombineReplay.Model
import ArcticPlatform.Library.Runs

/-!
# Combined outputs come back to their own forward

The queue of a frame holds what its forward returned, less what recomputes have taken.  The
shared queue holds the outputs of the forward that made it, as long as no other forward writes to it;
a recompute of another frame whose lookup fails takes that forward's outputs.

Main results:

- Theorem `Inv.step`: the invariant of the queues is kept.
- Theorem `recompute_own_outputs`: when recomputes receive their own outputs.
- Theorem `recompute_crosses`: a recompute that receives another forward's output.
-/

namespace ArcticPlatform.CombineReplay

open Dicts Runs List Option

variable {Frame T : Type} [DecidableEq Frame]

/-! ## The calls of a replay -/

variable (r : Replay Frame T)

@[simp] theorem start_recompute (grad : Bool) (lookup : Option Frame) :
    r.start ⟨grad, true, lookup⟩ = (.ok (), r) := by
  simp [Replay.start]

@[simp] theorem start_noGrad (recompute : Bool) (lookup : Option Frame) :
    r.start ⟨false, recompute, lookup⟩ = (.ok (), r) := by
  simp [Replay.start]

@[simp] theorem run_noGrad (lookup : Option Frame) (version : T → Nat) (output : T) :
    r.run ⟨false, false, lookup⟩ version output = (.ok output, r) := by
  simp [Replay.run]

theorem start_notFound :
    (r.start ⟨true, false, none⟩ = (.ok (), { r with outside := some [], writing := true }) ∧
      r.outside.getD [] = []) ∨ r.start ⟨true, false, none⟩ = (.error .cannotBeKeptApart, r) := by
  by_cases hempty : (r.outside.getD []).isEmpty
  · exact .inl ⟨by simp [Replay.start, hempty], List.isEmpty_iff.mp hempty⟩
  · exact .inr (by simp [Replay.start, hempty])

/-- A combine of a forward raises and changes nothing, or puts its output into a queue. -/
theorem run_forward (lookup : Option Frame) (version : T → Nat) (output : T) :
    r.run ⟨true, false, lookup⟩ version output = (.error .runBeforeStart, r) ∨
    ∃ queue q, r.queue ⟨true, false, lookup⟩ false = some queue ∧ r.entries queue = some q ∧
      r.run ⟨true, false, lookup⟩ version output =
        (.ok output, r.put (q ++ [(output, version output)]) queue) := by
  simp only [Replay.run, Bool.false_eq_true, if_false, if_true]
  cases hqueue : r.queue ⟨true, false, lookup⟩ false with
  | none => exact .inl rfl
  | some queue =>
    cases hq : r.entries queue with
    | none => exact .inl (by simp only [hq])
    | some q => exact .inr ⟨queue, q, rfl, hq, by simp only [hq]⟩

/-- A combine of a recompute raises and changes nothing, or takes the first output of a queue. -/
theorem run_recompute (lookup : Option Frame) (version : T → Nat) (output : T) :
    r.run ⟨true, true, lookup⟩ version output = (.error .noCombinedOutput, r) ∨
    ∃ queue combined kept rest, r.queue ⟨true, true, lookup⟩ true = some queue ∧
      r.entries queue = some ((combined, kept) :: rest) ∧
      r.run ⟨true, true, lookup⟩ version output =
        (if version combined ≠ kept then .error .modifiedInPlace else .ok combined,
          r.put rest queue) := by
  simp only [Replay.run, if_true]
  cases hqueue : r.queue ⟨true, true, lookup⟩ true with
  | none => exact .inl rfl
  | some queue =>
    cases hq : r.entries queue with
    | none => exact .inl (by simp only [hq])
    | some q =>
      match q with
      | [] => exact .inl (by simp only [hq])
      | (combined, kept) :: rest =>
        refine .inr ⟨queue, combined, kept, rest, rfl, hq, ?_⟩
        simp only [hq]
        split <;> rfl

/-! ## The invariant of the queues -/

/-- The outputs in a queue are those of a forward that recomputes have not taken. -/
def Kept (s : System Frame T) (frame : Frame) (q : List (T × Nat)) : Prop :=
  ∃ f, s.forwards frame = some f ∧ q.map Prod.fst = f.outputs.drop f.taken

/-- The outputs that recomputes of a frame have taken, and how far the present one is. -/
structure Forward.Places (f : Forward T) : Prop where
  taken : f.taken ≤ f.outputs.length
  position : f.position = f.taken ∨ f.position = 0
  running : f.phase = .running → f.taken = 0 ∧ f.position = 0

/-- Every queue holds the outputs of one forward. -/
structure Inv (s : System Frame T) : Prop where
  found : ∀ frame q, s.replay.byForward.get? frame = some q → Kept s frame q
  shared : ∀ q, s.replay.outside = some q → ∃ frame, s.owner = some frame ∧
    s.replay.byForward.get? frame = none ∧ Kept s frame q
  places : ∀ frame f, s.forwards frame = some f → f.Places

theorem inv_init : Inv (System.init : System Frame T) where
  found := by intro frame q h; cases h
  shared := by intro q h; cases h
  places := by intro frame f h; cases h

@[simp] theorem setForward_forwards (s : System Frame T) (frame frame' : Frame) (f : Forward T) :
    (s.setForward frame f).forwards frame' = if frame' = frame then some f else s.forwards frame' :=
  Function.update_apply _ _ _ _

variable {s : System Frame T}

theorem Kept.setForward_ne {frame frame' : Frame} {q : List (T × Nat)} (h : Kept s frame' q)
    (hne : frame' ≠ frame) (r : Replay Frame T) (owner : Option Frame) (f : Forward T) :
    Kept (({ s with replay := r, owner := owner } : System Frame T).setForward frame f) frame' q := by
  obtain ⟨f', hf', hq⟩ := h
  exact ⟨f', by simp [hne, hf'], hq⟩

variable {frame : Frame}

theorem Inv.get?_of_fresh (h : Inv s) (hfresh : s.forwards frame = none) :
    s.replay.byForward.get? frame = none := by
  cases hget : s.replay.byForward.get? frame with
  | none => rfl
  | some q =>
    obtain ⟨f, hf, -⟩ := h.found frame q hget
    rw [hfresh] at hf
    cases hf

/-- The queue belongs to the forward. -/
def Own (s : System Frame T) (frame : Frame) : Queue Frame → Prop
  | .forward g => g = frame
  | .outside => s.owner = some frame

variable {queue : Queue Frame}

theorem Inv.kept (h : Inv s) {q : List (T × Nat)} (hown : Own s frame queue)
    (hq : s.replay.entries queue = some q) : Kept s frame q := by
  cases queue with
  | forward g => exact hown ▸ h.found g q hq
  | outside =>
    obtain ⟨owner, howner, -, hkept⟩ := h.shared q hq
    obtain rfl : owner = frame := some.inj (howner.symm.trans hown)
    exact hkept

/-- The places of every forward, once one forward has changed. -/
theorem Inv.places_setForward (h : Inv s) {f' : Forward T} (hplaces : f'.Places)
    {s' : System Frame T} (hs : s'.forwards = s.forwards) (frame' : Frame) (g : Forward T)
    (hg : (s'.setForward frame f').forwards frame' = some g) : g.Places := by
  rw [setForward_forwards, hs] at hg
  split at hg
  · cases hg
    exact hplaces
  · exact h.places frame' g hg

theorem Inv.setForward (h : Inv s) {f f' : Forward T} (hf : s.forwards frame = some f)
    (houtputs : f'.outputs = f.outputs) (htaken : f'.taken = f.taken) (hplaces : f'.Places) :
    Inv (s.setForward frame f') := by
  have hkept : ∀ frame' q, Kept s frame' q → Kept (s.setForward frame f') frame' q := by
    rintro frame' q ⟨g, hg, hq⟩
    by_cases hframe : frame' = frame
    · subst hframe
      obtain rfl : g = f := some.inj (hg.symm.trans hf)
      exact ⟨f', by simp, by rw [hq, houtputs, htaken]⟩
    · exact ⟨g, by simp [hframe, hg], hq⟩
  refine ⟨fun frame' q hq => hkept _ _ (h.found frame' q hq), fun q hq => ?_,
    h.places_setForward hplaces rfl⟩
  obtain ⟨owner, howner, hget, hk⟩ := h.shared q hq
  exact ⟨owner, howner, hget, hkept _ _ hk⟩

/-- A forward changes together with its queue. -/
theorem Inv.put (h : Inv s) {q q' : List (T × Nat)} {f' : Forward T} (hown : Own s frame queue)
    (hq : s.replay.entries queue = some q) (hq' : q'.map Prod.fst = f'.outputs.drop f'.taken)
    (hplaces : f'.Places) :
    Inv (({ s with replay := s.replay.put q' queue } : System Frame T).setForward frame f') := by
  have hself : Kept (({ s with replay := s.replay.put q' queue } : System Frame T).setForward
      frame f') frame q' := ⟨f', by simp, hq'⟩
  cases queue with
  | forward g =>
    obtain rfl : g = frame := hown
    refine ⟨fun frame' p hp => ?_, fun p hp => ?_, h.places_setForward hplaces rfl⟩
    · change (s.replay.byForward.set g q').get? frame' = some p at hp
      rw [Dict.get?_set] at hp
      split at hp
      · rename_i hframe
        cases hp
        exact hframe ▸ hself
      · rename_i hframe
        exact (h.found frame' p hp).setForward_ne hframe _ s.owner _
    · obtain ⟨owner, howner, hget, hkept⟩ := h.shared p hp
      -- the owner of the shared queue has no queue of its own
      have hne : owner ≠ g := by
        rintro rfl
        rw [show s.replay.byForward.get? owner = some q from hq] at hget
        cases hget
      refine ⟨owner, howner, ?_, hkept.setForward_ne hne _ s.owner _⟩
      change (s.replay.byForward.set g q').get? owner = none
      rw [Dict.get?_set, if_neg hne, hget]
  | outside =>
    obtain ⟨owner, howner, hget, -⟩ := h.shared q hq
    obtain rfl : owner = frame := some.inj (howner.symm.trans hown)
    refine ⟨fun frame' p hp => ?_, fun p hp => ?_, h.places_setForward hplaces rfl⟩
    · have hne : frame' ≠ owner := by
        rintro rfl
        rw [show s.replay.byForward.get? frame' = some p from hp] at hget
        cases hget
      exact (h.found frame' p hp).setForward_ne hne _ s.owner _
    · cases hp
      exact ⟨owner, howner, hget, hself⟩

/-! ## Steps -/

/-- Where the frame of a call is not found: a forward writes to the shared queue that it made, and a
recompute finds the shared queue of its own forward, or an empty one.  A recompute begins when the
earlier ones have taken all outputs or none. -/
def OwnQueue (s : System Frame T) : Event Frame T → Prop
  | .combine frame found _ => found = false → s.replay.writing = true → s.owner = some frame
  | .recompute frame found _ =>
    (found = false → s.replay.outside.getD [] ≠ [] → s.owner = some frame) ∧
      ∀ f, s.forwards frame = some f → f.position = 0 → f.taken = 0 ∨ f.taken = f.outputs.length
  | _ => True

theorem own_of_queue {found recompute reading : Bool}
    (hqueue : s.replay.queue ⟨true, recompute, lookup frame found⟩ reading = some queue)
    (hown : found = false → (reading || s.replay.writing) = true → s.owner = some frame) :
    Own s frame queue := by
  cases found with
  | true =>
    obtain rfl : Queue.forward frame = queue := some.inj hqueue
    rfl
  | false =>
    simp only [Replay.queue, lookup, Bool.false_eq_true, if_false] at hqueue
    split at hqueue
    · rename_i hshared
      cases hqueue
      exact hown rfl hshared
    · cases hqueue

theorem own_of_recompute {found : Bool} {output : T} {entry : T × Nat} {rest : List (T × Nat)}
    (hown : OwnQueue s (.recompute frame found output))
    (hqueue : s.replay.queue ⟨true, true, lookup frame found⟩ true = some queue)
    (hq : s.replay.entries queue = some (entry :: rest)) : Own s frame queue := by
  refine own_of_queue hqueue fun hfound _ => hown.1 hfound ?_
  subst hfound
  obtain rfl : Queue.outside = queue := some.inj hqueue
  rw [show s.replay.outside = some (entry :: rest) from hq]
  exact cons_ne_nil _ _

/-- The first entry of the queue of a forward is the output at the place of the recompute. -/
theorem Inv.front (h : Inv s) {f : Forward T} {combined : T} {kept : Nat} {rest : List (T × Nat)}
    (hf : s.forwards frame = some f) (hown : Own s frame queue)
    (hq : s.replay.entries queue = some ((combined, kept) :: rest))
    (hbegin : f.position = 0 → f.taken = 0 ∨ f.taken = f.outputs.length) :
    f.position = f.taken ∧ f.taken < f.outputs.length ∧ f.outputs[f.taken]? = some combined ∧
      rest.map Prod.fst = f.outputs.drop (f.taken + 1) := by
  obtain ⟨g, hg, hkept⟩ := h.kept hown hq
  obtain rfl : g = f := some.inj (hg.symm.trans hf)
  rw [map_cons] at hkept
  have hget : g.outputs[g.taken]? = some combined := by
    have hhead := congrArg List.head? hkept
    rw [head?_drop] at hhead
    exact hhead.symm
  have hlt : g.taken < g.outputs.length := (List.getElem?_eq_some_iff.mp hget).1
  refine ⟨?_, hlt, hget, ?_⟩
  · rcases (h.places frame g hf).position with hposition | hposition
    · exact hposition
    · rcases hbegin hposition with htaken | htaken <;> omega
  · have htail := congrArg List.tail hkept
    rwa [tail_drop] at htail

/-- The start of a forward. -/
theorem Inv.start (h : Inv s) (hfresh : s.forwards frame = none)
    (phase : Phase) (r : Replay Frame T) (owner : Option Frame)
    (hr : (r = { s.replay with byForward := s.replay.byForward.set frame [], writing := false } ∧
        owner = s.owner) ∨
      (r = { s.replay with outside := some [], writing := true } ∧ owner = some frame) ∨
      (r = s.replay ∧ owner = s.owner)) :
    Inv (({ s with replay := r, owner := owner } : System Frame T).setForward frame (.new phase)) := by
  have hnone := h.get?_of_fresh hfresh
  have hne : ∀ {frame' q}, Kept s frame' q → frame' ≠ frame := by
    rintro frame' q ⟨f, hf, -⟩ rfl
    rw [hfresh] at hf
    cases hf
  have hplaces : (Forward.new (T := T) phase).Places := ⟨le_rfl, .inl rfl, fun _ => ⟨rfl, rfl⟩⟩
  have hself : ∀ r owner, Kept (({ s with replay := r, owner := owner } : System Frame T).setForward
      frame (.new phase)) frame [] := fun r owner => ⟨.new phase, by simp, rfl⟩
  rcases hr with ⟨rfl, rfl⟩ | ⟨rfl, rfl⟩ | ⟨rfl, rfl⟩
  · refine ⟨fun frame' q hq => ?_, fun q hq => ?_, h.places_setForward hplaces rfl⟩
    · change (s.replay.byForward.set frame []).get? frame' = some q at hq
      rw [Dict.get?_set] at hq
      split at hq
      · rename_i hframe
        cases hq
        rw [hframe]
        exact hself _ _
      · rename_i hframe
        exact (h.found frame' q hq).setForward_ne hframe _ _ _
    · obtain ⟨g, hg, hget, hkept⟩ := h.shared q hq
      refine ⟨g, hg, ?_, hkept.setForward_ne (hne hkept) _ _ _⟩
      change (s.replay.byForward.set frame []).get? g = none
      rw [Dict.get?_set, if_neg (hne hkept), hget]
  · refine ⟨fun frame' q hq => ?_, fun q hq => ?_, h.places_setForward hplaces rfl⟩
    · exact (h.found frame' q hq).setForward_ne (hne (h.found frame' q hq)) _ _ _
    · cases hq
      exact ⟨frame, rfl, hnone, hself _ _⟩
  · refine ⟨fun frame' q hq => ?_, fun q hq => ?_, h.places_setForward hplaces rfl⟩
    · exact (h.found frame' q hq).setForward_ne (hne (h.found frame' q hq)) _ _ _
    · obtain ⟨g, hg, hget, hkept⟩ := h.shared q hq
      exact ⟨g, hg, hget, hkept.setForward_ne (hne hkept) _ _ _⟩

variable [DecidableEq T]

variable {e : Event Frame T}

variable {s' : System Frame T} {result : Except Error (Option T)} {found : Bool} {output : T}

theorem step_combine (h : s.step (.combine frame found output) = some (s', result)) :
    ∃ f, s.forwards frame = some f ∧ f.phase = .running ∧ ∃ received replay,
      s.replay.run ⟨true, false, lookup frame found⟩ s.version output = (received, replay) ∧
      s' = { s with replay }.setForward frame (f.combined received) ∧
      result = received.map some := by
  cases hf : s.forwards frame with
  | none => simp [System.step, hf] at h
  | some f =>
    simp only [System.step, hf] at h
    obtain ⟨hphase, h⟩ := ite_none_left_eq_some.mp h
    cases h
    exact ⟨f, rfl, not_not.mp hphase, _, _, rfl, rfl, rfl⟩

theorem step_finish (h : s.step (.finish frame) = some (s', result)) :
    ∃ f, s.forwards frame = some f ∧ s' = s.setForward frame { f with phase := .finished } ∧
      result = .ok none := by
  cases hf : s.forwards frame with
  | none => simp [System.step, hf] at h
  | some f =>
    simp only [System.step, hf] at h
    cases (ite_none_left_eq_some.mp h).2
    exact ⟨f, rfl, rfl, rfl⟩

theorem step_recompute (h : s.step (.recompute frame found output) = some (s', result)) :
    ∃ f, s.forwards frame = some f ∧ f.phase = .finished ∧ f.position < f.outputs.length ∧
      ∃ received replay,
      s.replay.run ⟨true, true, lookup frame found⟩ s.version output = (received, replay) ∧
      s' = { s with replay }.setForward frame (f.recomputed received) ∧
      result = received.map some := by
  cases hf : s.forwards frame with
  | none => simp [System.step, hf] at h
  | some f =>
    simp only [System.step, hf] at h
    obtain ⟨hphase, h⟩ := ite_none_left_eq_some.mp h
    push Not at hphase
    cases h
    exact ⟨f, rfl, hphase.1, hphase.2, _, _, rfl, rfl, rfl⟩

/-- The invariant of the queues is kept by every step that works on its forward's own queue. -/
theorem Inv.step (h : Inv s) (hown : OwnQueue s e) (hstep : s.step e = some (s', result)) :
    Inv s' := by
  cases e with
  | start frame found =>
    simp only [System.step] at hstep
    split at hstep
    · cases hstep
    · rename_i hfresh
      cases hstep
      cases found with
      | true => exact h.start hfresh _ _ _ (.inl ⟨by simp [Replay.start, lookup], by simp⟩)
      | false =>
        rcases start_notFound s.replay with ⟨hstart, -⟩ | hstart
        · exact h.start hfresh _ _ _ (.inr (.inl ⟨by simp [lookup, hstart],
            by simp [lookup, hstart, Except.isOk, Except.toBool]⟩))
        · exact h.start hfresh _ _ _ (.inr (.inr ⟨by simp [lookup, hstart],
            by simp [lookup, hstart, Except.isOk, Except.toBool]⟩))
  | combine frame found output =>
    obtain ⟨f, hf, hphase, received, replay, hcall, rfl, -⟩ := step_combine hstep
    have hplaces := h.places frame f hf
    obtain ⟨htaken, hposition⟩ := hplaces.running hphase
    rcases run_forward s.replay (lookup frame found) s.version output with
      hrun | ⟨queue, q, hqueue, hq, hrun⟩
    · cases hcall.symm.trans hrun
      exact h.setForward hf rfl rfl ⟨hplaces.taken, hplaces.position, by rintro ⟨⟩⟩
    · cases hcall.symm.trans hrun
      have hqueueOwn : Own s frame queue := own_of_queue hqueue fun hfound hwriting =>
        hown hfound (by simpa using hwriting)
      obtain ⟨g, hg, hkept⟩ := h.kept hqueueOwn hq
      obtain rfl : g = f := some.inj (hg.symm.trans hf)
      refine h.put hqueueOwn hq ?_ ⟨?_, .inr hposition, fun _ => ⟨htaken, hposition⟩⟩
      · simp [Forward.combined, hkept, htaken]
      · simp [Forward.combined, htaken]
  | finish frame =>
    obtain ⟨f, hf, rfl, -⟩ := step_finish hstep
    have hplaces := h.places frame f hf
    exact h.setForward hf rfl rfl ⟨hplaces.taken, hplaces.position, by rintro ⟨⟩⟩
  | recomputeStart frame found =>
    simp only [System.step, start_recompute] at hstep
    cases hstep
    exact h
  | recompute frame found output =>
    obtain ⟨f, hf, hphase, -, received, replay, hcall, rfl, -⟩ := step_recompute hstep
    have hplaces := h.places frame f hf
    have hrunning : f.phase ≠ .running := by rw [hphase]; decide
    rcases run_recompute s.replay (lookup frame found) s.version output with
      hrun | ⟨queue, combined, kept, rest, hqueue, hq, hrun⟩
    · cases hcall.symm.trans hrun
      exact h.setForward hf rfl rfl ⟨hplaces.taken, .inr rfl, fun hr => absurd hr hrunning⟩
    · cases hcall.symm.trans hrun
      have hqueueOwn := own_of_recompute hown hqueue hq
      obtain ⟨hposition, hlt, -, hrest⟩ := h.front hf hqueueOwn hq (hown.2 f hf)
      have hrecomputed : (f.recomputed (if s.version combined ≠ kept then .error .modifiedInPlace
          else .ok combined)).outputs = f.outputs ∧
          (f.recomputed (if s.version combined ≠ kept then .error .modifiedInPlace
            else .ok combined)).taken = f.taken + 1 := by
        split
        · exact ⟨rfl, rfl⟩
        · simp only [Forward.recomputed]
          split <;> exact ⟨rfl, rfl⟩
      refine h.put hqueueOwn hq (by rw [hrecomputed.1, hrecomputed.2, hrest]) ⟨?_, ?_, ?_⟩
      · rw [hrecomputed.1, hrecomputed.2]
        omega
      · rw [hrecomputed.2]
        split
        · exact .inr rfl
        · simp only [Forward.recomputed]
          split
          · exact .inr rfl
          · exact .inl (by rw [hposition])
      · intro hr
        refine absurd ?_ hrunning
        revert hr
        split
        · exact id
        · simp only [Forward.recomputed]
          split <;> exact id
  | noGradStart lookup =>
    simp only [System.step, start_noGrad] at hstep
    cases hstep
    exact h
  | noGradCombine lookup output =>
    simp only [System.step, run_noGrad] at hstep
    cases hstep
    exact h
  | modify output =>
    cases hstep
    exact ⟨h.found, h.shared, h.places⟩

/-- A combine of a recompute receives the output at its place, or raises. -/
def OwnOutput (s : System Frame T) (e : Event Frame T) : Prop :=
  ∀ frame found output s' received, e = .recompute frame found output →
    s.step e = some (s', .ok received) →
      ∃ f, s.forwards frame = some f ∧ ∃ t, received = some t ∧ f.outputs[f.position]? = some t

theorem Inv.ownOutput (h : Inv s) (hown : OwnQueue s e) : OwnOutput s e := by
  rintro frame found output s' received rfl hstep
  obtain ⟨f, hf, -, -, answer, replay, hcall, -, hanswer⟩ := step_recompute hstep
  rcases run_recompute s.replay (lookup frame found) s.version output with
    hrun | ⟨queue, combined, kept, rest, hqueue, hq, hrun⟩
  · cases hcall.symm.trans hrun
    cases hanswer
  · cases hcall.symm.trans hrun
    have hqueueOwn := own_of_recompute hown hqueue hq
    obtain ⟨hposition, -, hget, -⟩ := h.front hf hqueueOwn hq (hown.2 f hf)
    split at hanswer
    · cases hanswer
    · cases hanswer
      exact ⟨f, hf, combined, rfl, hposition ▸ hget⟩

/-! ## Runs whose lookups succeed -/

/-- The lookup of the frame succeeds, and no output is modified in place. -/
def Found (_ : System Frame T) : Event Frame T → Prop
  | .start _ found => found = true
  | .combine _ found _ => found = true
  | .recompute _ found _ => found = true
  | .modify _ => False
  | _ => True

/-- A forward that has not raised, and whose recomputes have run to their end. -/
structure Forward.Steady (f : Forward T) : Prop where
  phase : f.phase ≠ .raised
  running : f.phase = .running → f.recomputes = 0
  first : f.recomputes = 0 → f.position = f.taken
  later : f.recomputes ≠ 0 → f.taken = f.outputs.length ∧ f.position = 0

/-- Every forward has a queue of its own, whose outputs have not been modified. -/
structure Steady (s : System Frame T) : Prop where
  inv : Inv s
  queues : ∀ frame f, s.forwards frame = some f → f.Steady ∧
    ∃ q, s.replay.byForward.get? frame = some q ∧ ∀ entry ∈ q, s.version entry.1 = entry.2

/-- No forward raises, and neither does the first recompute of a frame. -/
def NoRaise (s : System Frame T) (e : Event Frame T) : Prop :=
  ∀ s' result, s.step e = some (s', result) →
    (∀ frame found output f, e = .recompute frame found output → s.forwards frame = some f →
      f.recomputes = 0) → result.isOk

omit [DecidableEq T] in
theorem Steady.ownQueue (h : Steady s) (he : Found s e) : OwnQueue s e := by
  cases e with
  | combine frame found output =>
    intro hfound
    rw [show found = true from he] at hfound
    cases hfound
  | recompute frame found output =>
    refine ⟨fun hfound => ?_, fun f hf hposition => ?_⟩
    · rw [show found = true from he] at hfound
      cases hfound
    · have hsteady := (h.queues frame f hf).1
      by_cases hfirst : f.recomputes = 0
      · exact .inl ((hsteady.first hfirst).symm.trans hposition)
      · exact .inr (hsteady.later hfirst).1
  | _ => trivial

omit [DecidableEq T] in
theorem queues_setForward {r : Replay Frame T} {owner : Option Frame} {f' : Forward T}
    (q' : List (T × Nat)) (h : ∀ frame f, s.forwards frame = some f → f.Steady ∧
      ∃ q, s.replay.byForward.get? frame = some q ∧ ∀ entry ∈ q, s.version entry.1 = entry.2)
    (hr : ∀ frame', r.byForward.get? frame' =
      if frame' = frame then some q' else s.replay.byForward.get? frame')
    (hf' : f'.Steady) (hq' : ∀ entry ∈ q', s.version entry.1 = entry.2) (frame' : Frame)
    (g : Forward T)
    (hg : (({ s with replay := r, owner := owner } : System Frame T).setForward frame f').forwards
      frame' = some g) :
    g.Steady ∧ ∃ q, r.byForward.get? frame' = some q ∧ ∀ entry ∈ q, s.version entry.1 = entry.2 := by
  rw [setForward_forwards] at hg
  rw [hr]
  split at hg
  · rename_i hframe
    cases hg
    rw [if_pos hframe]
    exact ⟨hf', q', rfl, hq'⟩
  · rename_i hframe
    rw [if_neg hframe]
    exact h frame' g hg

/-- Steps whose lookups succeed keep the queues, and raise only where a frame is recomputed again. -/
theorem Steady.step (h : Steady s) (he : Found s e) (hstep : s.step e = some (s', result)) :
    Steady s' ∧ ((∀ frame found output f, e = .recompute frame found output →
      s.forwards frame = some f → f.recomputes = 0) → result.isOk) := by
  have hinv := h.inv.step (h.ownQueue he) hstep
  cases e with
  | start frame found =>
    obtain rfl : found = true := he
    simp only [System.step] at hstep
    split at hstep
    · cases hstep
    · cases hstep
      refine ⟨⟨hinv, queues_setForward [] h.queues (fun frame' => ?_) ?_ (by simp)⟩, fun _ => rfl⟩
      · exact Dict.get?_set _ _ _ _
      · exact ⟨by simp [Forward.new, Replay.start, lookup, Except.isOk, Except.toBool], fun _ => rfl,
          fun _ => rfl, fun hne => absurd rfl hne⟩
  | combine frame found output =>
    obtain rfl : found = true := he
    obtain ⟨f, hf, hrunning, received, replay, hcall, rfl, rfl⟩ := step_combine hstep
    obtain ⟨hsteady, q, hq, hversion⟩ := h.queues frame f hf
    have hrun : s.replay.run ⟨true, false, lookup frame true⟩ s.version output = (.ok output,
        s.replay.put (q ++ [(output, s.version output)]) (.forward frame)) := by
      simp [Replay.run, Replay.queue, lookup, Replay.entries, hq]
    cases hcall.symm.trans hrun
    refine ⟨⟨hinv, queues_setForward _ h.queues (fun frame' => Dict.get?_set _ _ _ _) ?_ ?_⟩,
      fun _ => rfl⟩
    · have hfirst := hsteady.running hrunning
      exact ⟨hsteady.phase, hsteady.running, hsteady.first, fun hne => absurd hfirst hne⟩
    · intro entry hentry
      rcases mem_append.mp hentry with hold | hnew
      · exact hversion entry hold
      · rw [mem_singleton.mp hnew]
  | finish frame =>
    obtain ⟨f, hf, rfl, rfl⟩ := step_finish hstep
    obtain ⟨hsteady, q, hq, hversion⟩ := h.queues frame f hf
    refine ⟨⟨hinv, queues_setForward _ h.queues (fun frame' => ?_) ?_ hversion⟩, fun _ => rfl⟩
    · split
      · rename_i hframe
        rw [hframe, hq]
      · rfl
    · exact ⟨by simp, by simp, hsteady.first, hsteady.later⟩
  | recomputeStart frame found =>
    simp only [System.step, start_recompute] at hstep
    cases hstep
    exact ⟨h, fun _ => rfl⟩
  | recompute frame found output =>
    obtain rfl : found = true := he
    obtain ⟨f, hf, hfinished, hlt, received, replay, hcall, rfl, rfl⟩ := step_recompute hstep
    obtain ⟨hsteady, q, hq, hversion⟩ := h.queues frame f hf
    obtain ⟨g, hg, hkept⟩ := h.inv.found frame q hq
    obtain rfl : g = f := some.inj (hg.symm.trans hf)
    have hentries : s.replay.entries (.forward frame) = some q := hq
    by_cases hfirst : g.recomputes = 0
    · -- the first recompute: the queue still has the output at its place
      have hposition := hsteady.first hfirst
      cases q with
      | nil =>
        have hlength := congrArg List.length hkept
        rw [map_nil, length_nil, length_drop] at hlength
        omega
      | cons entry rest =>
        obtain ⟨combined, kept⟩ := entry
        have hcurrent : s.version combined = kept := hversion _ mem_cons_self
        have hrun : s.replay.run ⟨true, true, lookup frame true⟩ s.version output =
            (.ok combined, s.replay.put rest (.forward frame)) := by
          simp [Replay.run, Replay.queue, lookup, hentries, hcurrent]
        cases hcall.symm.trans hrun
        refine ⟨⟨hinv, queues_setForward _ h.queues (fun frame' => Dict.get?_set _ _ _ _) ?_
          fun entry hentry => hversion entry (mem_cons_of_mem _ hentry)⟩, fun _ => rfl⟩
        simp only [Forward.recomputed]
        split
        · rename_i hlast
          exact ⟨hsteady.phase, fun hr => absurd (hfinished.symm.trans hr) (by decide),
            fun hzero => absurd hzero (Nat.succ_ne_zero _), fun _ => ⟨by simp only; omega, rfl⟩⟩
        · exact ⟨hsteady.phase, hsteady.running, fun _ => by simp only; omega,
            fun hne => absurd hfirst hne⟩
    · -- all outputs have been taken
      have htaken := (hsteady.later hfirst).1
      have hempty : q = [] := by
        rw [htaken, drop_length] at hkept
        exact map_eq_nil_iff.mp hkept
      subst hempty
      have hrun : s.replay.run ⟨true, true, lookup frame true⟩ s.version output =
          (.error .noCombinedOutput, s.replay) := by
        simp [Replay.run, Replay.queue, lookup, hentries]
      cases hcall.symm.trans hrun
      refine ⟨⟨hinv, queues_setForward _ h.queues (fun frame' => ?_) ?_ hversion⟩,
        fun hall => absurd (hall frame true output g rfl hf) hfirst⟩
      · split
        · rename_i hframe
          rw [hframe, hq]
        · rfl
      · exact ⟨hsteady.phase, fun hr => absurd (hfinished.symm.trans hr) (by decide),
          fun hzero => absurd hzero (Nat.succ_ne_zero _), fun _ => ⟨htaken, rfl⟩⟩
  | noGradStart lookup =>
    simp only [System.step, start_noGrad] at hstep
    cases hstep
    exact ⟨h, fun _ => rfl⟩
  | noGradCombine lookup output =>
    simp only [System.step, run_noGrad] at hstep
    cases hstep
    exact ⟨h, fun _ => rfl⟩
  | modify output => exact absurd he id

/-! ## Runs -/

/-- The next state of a call. -/
def next (s : System Frame T) (e : Event Frame T) : Option (System Frame T) := (s.step e).map Prod.fst

theorem exists_step_of_next {s s' : System Frame T} (h : next s e = some s') :
    ∃ result, s.step e = some (s', result) := by
  obtain ⟨⟨t, result⟩, hstep, rfl⟩ := map_eq_some_iff.mp h
  exact ⟨result, hstep⟩

/-- In every run whose calls work on the queue of their own forward, a combine of a recompute
receives the output at its place in that forward or raises; and in every run whose lookups succeed
no forward raises, and neither does the first recompute of a frame. -/
theorem recompute_own_outputs (s : System Frame T) (e : Event Frame T) :
    (Reaches next OwnQueue .init s → OwnQueue s e → OwnOutput s e) ∧
      (Reaches next Found .init s → Found s e → OwnOutput s e ∧ NoRaise s e) := by
  constructor
  · intro hs he
    have hinv : Inv s := hs.invariant inv_init fun t a t' ht hok hnext =>
      (exists_step_of_next hnext).elim fun _ hstep => ht.step hok hstep
    exact hinv.ownOutput he
  · intro hs he
    have hsteady : Steady s := hs.invariant ⟨inv_init, fun frame f hf => nomatch hf⟩
      fun t a t' ht hok hnext => (exists_step_of_next hnext).elim fun _ hstep =>
        (ht.step hok hstep).1
    exact ⟨hsteady.inv.ownOutput (hsteady.ownQueue he),
      fun s' result hstep hfirst => (hsteady.step he hstep).2 hfirst⟩

/-- The state after calls that can take place. -/
def after (events : List (Event Nat String)) : System Nat String :=
  events.foldl (fun s e => (next s e).getD s) .init

/-- The calls of a forward whose lookups fail. -/
def notFound : List (Event Nat String) := [.start 0 false, .combine 0 false "a", .finish 0]

/-- Its recompute receives its output, and so does that of a forward whose lookups succeed. -/
theorem recompute_own_outputs_notFound :
    OwnOutput (after notFound) (.recompute 0 false "a") ∧
      NoRaise (after [.start 0 true]) (.combine 0 true "a") := by
  have hstart : Reaches next OwnQueue .init (after [.start 0 false]) :=
    .next (a := .start 0 false) .start trivial rfl
  have hcombine : Reaches next OwnQueue .init (after [.start 0 false, .combine 0 false "a"]) :=
    .next (a := .combine 0 false "a") hstart (fun _ _ => rfl) rfl
  have hshared : Reaches next OwnQueue .init (after notFound) :=
    .next (a := .finish 0) hcombine trivial rfl
  have hfound : Reaches next Found .init (after [.start 0 true]) :=
    .next (a := .start 0 true) .start rfl rfl
  refine ⟨(recompute_own_outputs (after notFound) (.recompute 0 false "a")).1 hshared ⟨fun _ _ => rfl, ?_⟩,
    ((recompute_own_outputs (after [.start 0 true]) (.combine 0 true "a")).2 hfound rfl).2⟩
  rintro f hf -
  cases hf
  exact .inl rfl

/-- A forward whose lookups fail, and then one whose lookups succeed. -/
def twoForwards : List (Event Nat String) :=
  notFound ++ [.start 1 true, .combine 1 true "b", .finish 1]

/-- Where the lookup fails in the recompute of the second forward, it receives the output of the
first one. -/
theorem recompute_crosses :
    Reaches next Always .init (after twoForwards) ∧
      ¬ OwnOutput (after twoForwards) (.recompute 1 false "b") := by
  constructor
  · exact reaches_of_execute twoForwards rfl
  · intro h
    obtain ⟨f, hf, t, ht, hget⟩ := h 1 false "b" _ (some "a") rfl rfl
    cases hf
    cases ht
    exact absurd hget (by decide)

end ArcticPlatform.CombineReplay
