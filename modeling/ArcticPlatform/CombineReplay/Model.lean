import ArcticPlatform.Library.Dict

/-!
# Combine replay

An embedding of `CombineReplay` of `moe/distributed/combine_replay.py`: the combined
outputs of one layer, in one queue for each checkpoint frame, with one queue that is shared by
the forwards whose frame was not found.  Around it, the calls of `start` and `run` that
forwards and recomputes of the layer make, in any order.
-/

namespace ArcticPlatform.CombineReplay

open Dicts

variable {Frame T : Type} [DecidableEq Frame]

/-! ## The replay of a layer -/

/-- The `RuntimeError`s. -/
inductive Error
  /-- the checkpoint frame was not found, so this forward cannot be kept apart from an earlier one
  that has not been recomputed -/
  | cannotBeKeptApart
  /-- a recompute found no combined output from its forward -/
  | noCombinedOutput
  /-- the combined output was modified in place after its forward -/
  | modifiedInPlace
  /-- run() before start() on a graph-building forward -/
  | runBeforeStart
  deriving DecidableEq

/-- What a call finds: `torch.is_grad_enabled()`, `_in_recompute()` and
`_checkpoint_frame()`. -/
structure Context (Frame : Type) where
  gradEnabled : Bool
  inRecompute : Bool
  checkpointFrame : Option Frame

/-- The fields of `CombineReplay`; `writing` says that `_writing is _OUTSIDE`. -/
structure Replay (Frame T : Type) [DecidableEq Frame] where
  byForward : Dict Frame (List (T × Nat))
  outside : Option (List (T × Nat))
  writing : Bool

/-- `CombineReplay.__init__`. -/
def Replay.init : Replay Frame T := ⟨.empty, none, false⟩

/-- `CombineReplay.start`. -/
def Replay.start (r : Replay Frame T) (ctx : Context Frame) : Except Error Unit × Replay Frame T :=
  if !ctx.gradEnabled || ctx.inRecompute then (.ok (), r)
  else
    match ctx.checkpointFrame with
    | none =>
      if (r.outside.getD []).isEmpty then (.ok (), { r with outside := some [], writing := true })
      else (.error .cannotBeKeptApart, r)
    | some frame => (.ok (), { r with byForward := r.byForward.set frame [], writing := false })

/-- Which of the queues a call works on. -/
inductive Queue (Frame : Type)
  | forward (frame : Frame)
  | outside

/-- The entries of a queue, where there is one. -/
def Replay.entries (r : Replay Frame T) : Queue Frame → Option (List (T × Nat))
  | .forward frame => r.byForward.get? frame
  | .outside => r.outside

/-- A queue with other entries. -/
def Replay.put (r : Replay Frame T) (entries : List (T × Nat)) : Queue Frame → Replay Frame T
  | .forward frame => { r with byForward := r.byForward.set frame entries }
  | .outside => { r with outside := some entries }

/-- `CombineReplay._queue`. -/
def Replay.queue (r : Replay Frame T) (ctx : Context Frame) (reading : Bool) : Option (Queue Frame) :=
  match ctx.checkpointFrame with
  | some frame => some (.forward frame)
  | none => if reading || r.writing then some .outside else none

/-- `CombineReplay.run`, where `combine()` gives `output`.  A replayed output is
a copy of what the forward kept. -/
def Replay.run (r : Replay Frame T) (ctx : Context Frame) (version : T → Nat) (output : T) :
    Except Error T × Replay Frame T :=
  if ctx.inRecompute then
    match r.queue ctx true with
    | none => (.error .noCombinedOutput, r)
    | some queue =>
      match r.entries queue with
      | none | some [] => (.error .noCombinedOutput, r)
      | some ((combined, kept) :: rest) =>
        if version combined ≠ kept then (.error .modifiedInPlace, r.put rest queue)
        else (.ok combined, r.put rest queue)
  else if ctx.gradEnabled then
    match r.queue ctx false with
    | none => (.error .runBeforeStart, r)
    | some queue =>
      match r.entries queue with
      | none => (.error .runBeforeStart, r)
      | some entries => (.ok output, r.put (entries ++ [(output, version output)]) queue)
  else (.ok output, r)

/-! ## Forwards and recomputes -/

/-- How far the forward of a frame is. -/
inductive Phase
  | running
  | finished
  | raised
  deriving DecidableEq

/-- The forward of a frame, with the combined outputs it returned; the place of the next combine
in a recompute; how many outputs recomputes have taken, and how many recomputes are over. -/
structure Forward (T : Type) where
  phase : Phase
  outputs : List T
  position : Nat
  taken : Nat
  recomputes : Nat

/-- The layer's replay and the versions of the tensors, with the forwards so far.  The owner of
the shared queue is the forward that last made it. -/
structure System (Frame T : Type) [DecidableEq Frame] where
  replay : Replay Frame T
  version : T → Nat
  forwards : Frame → Option (Forward T)
  owner : Option Frame

/-- No forward yet. -/
def System.init : System Frame T := ⟨.init, fun _ => 0, fun _ => none, none⟩

/-- A call of a forward or a recompute, with whether the lookup of its frame succeeds, or a
write to a combined output in place. -/
inductive Event (Frame T : Type)
  | start (frame : Frame) (found : Bool)
  | combine (frame : Frame) (found : Bool) (output : T)
  | finish (frame : Frame)
  | recomputeStart (frame : Frame) (found : Bool)
  | recompute (frame : Frame) (found : Bool) (output : T)
  | noGradStart (lookup : Option Frame)
  | noGradCombine (lookup : Option Frame) (output : T)
  | modify (output : T)

/-- What the lookup of a frame gives. -/
def lookup (frame : Frame) (found : Bool) : Option Frame := if found then some frame else none

/-- A forward that has only started. -/
def Forward.new (phase : Phase) : Forward T := ⟨phase, [], 0, 0, 0⟩

/-- A combine of a forward, by what `run` gives. -/
def Forward.combined (f : Forward T) : Except Error T → Forward T
  | .ok output => { f with outputs := f.outputs ++ [output] }
  | .error _ => { f with phase := .raised }

/-- A combine of a recompute, by what `run` gives.  A recompute is over after as many
combines as the forward had, or when it raises. -/
def Forward.recomputed (f : Forward T) : Except Error T → Forward T
  | .ok _ =>
    if f.position + 1 = f.outputs.length then
      { f with position := 0, taken := f.taken + 1, recomputes := f.recomputes + 1 }
    else { f with position := f.position + 1, taken := f.taken + 1 }
  | .error .modifiedInPlace =>
    { f with position := 0, taken := f.taken + 1, recomputes := f.recomputes + 1 }
  | .error _ => { f with position := 0, recomputes := f.recomputes + 1 }

/-- The forward of a frame is replaced. -/
def System.setForward (s : System Frame T) (frame : Frame) (f : Forward T) : System Frame T :=
  { s with forwards := Function.update s.forwards frame (some f) }

variable [DecidableEq T]

/-- A call takes place, where it can: a frame has one forward, which is recomputed once it has
finished.  With the state, what the call returns. -/
def System.step (s : System Frame T) : Event Frame T → Option (System Frame T × Except Error (Option T))
  | .start frame found =>
    match s.forwards frame with
    | some _ => none
    | none =>
      let (result, replay) := s.replay.start ⟨true, false, lookup frame found⟩
      let phase := if result.isOk then .running else .raised
      let owner := if result.isOk && !found then some frame else s.owner
      some ({ s with replay, owner }.setForward frame (.new phase), result.map fun _ => none)
  | .combine frame found output =>
    match s.forwards frame with
    | none => none
    | some f =>
      if f.phase ≠ .running then none
      else
        let (result, replay) := s.replay.run ⟨true, false, lookup frame found⟩ s.version output
        some ({ s with replay }.setForward frame (f.combined result), result.map some)
  | .finish frame =>
    match s.forwards frame with
    | none => none
    | some f =>
      if f.phase ≠ .running then none
      else some (s.setForward frame { f with phase := .finished }, .ok none)
  | .recomputeStart frame found =>
    let (result, replay) := s.replay.start ⟨true, true, lookup frame found⟩
    some ({ s with replay }, result.map fun _ => none)
  | .recompute frame found output =>
    match s.forwards frame with
    | none => none
    | some f =>
      if f.phase ≠ .finished ∨ f.outputs.length ≤ f.position then none
      else
        let (result, replay) := s.replay.run ⟨true, true, lookup frame found⟩ s.version output
        some ({ s with replay }.setForward frame (f.recomputed result), result.map some)
  | .noGradStart lookup =>
    let (result, replay) := s.replay.start ⟨false, false, lookup⟩
    some ({ s with replay }, result.map fun _ => none)
  | .noGradCombine lookup output =>
    let (result, replay) := s.replay.run ⟨false, false, lookup⟩ s.version output
    some ({ s with replay }, result.map some)
  | .modify output =>
    some ({ s with version := Function.update s.version output (s.version output + 1) }, .ok none)

end ArcticPlatform.CombineReplay
