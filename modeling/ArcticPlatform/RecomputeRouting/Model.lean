import ArcticPlatform.Library.Dict

/-!
# Routing in a checkpoint recompute

An embedding of `_wrap_router` and of the checkpoint contexts of
`gpu/router_replay_recompute.py`, with the selection of experts of
`TokenChoiceTopKRouter.forward`.  A router keeps the experts of its calls under every
checkpoint frame whose forward is running, and takes them from there in a recompute of the
frame.  Around it, threads that enter forwards and recomputes of checkpointed regions, and
routers that are called in them.
-/

namespace ArcticPlatform.RecomputeRouting

open Dicts

variable {Thread Frame Router : Type} [DecidableEq Thread] [DecidableEq Frame] [DecidableEq Router]

/-! ## The router -/

/-- The experts of the tokens of a call, end to end. -/
abbrev Experts := List Int

/-- `ROUTER_REPLAY_FRESH`. -/
def routerReplayFresh : Int := -1

/-- `selected_experts_indices` of `TokenChoiceTopKRouter.forward`, where the gate's own
topk gives `own`. -/
def selectExperts (freshReplayRouting : Bool) (routedExperts : Option Experts) (own : List Nat) :
    Experts :=
  match routedExperts with
  | none => own.map Nat.cast
  | some routed =>
    if freshReplayRouting then
      List.zipWith (fun r (o : Nat) => if r = routerReplayFresh then (o : Int) else r) routed own
    else routed

/-- `num_tokens_per_expert`. -/
def numTokensPerExpert (numExperts : Nat) (experts : Experts) : List Nat :=
  (List.range numExperts).map fun e => experts.count (e : Int)

/-! ## Checkpoint contexts -/

/-- A call of a router: its arguments, the number of experts it selects, and these experts. -/
structure Call (Router : Type) where
  router : Router
  routedExperts : Option Experts
  size : Nat
  experts : Experts

/-- An entry of `checkpoint_contexts`: a frame, whether it is recomputed, and the positions of the
routers.  The calls of routers made in it so far are not in the source. -/
structure Context (Frame Router : Type) [DecidableEq Router] where
  frame : Frame
  recompute : Bool
  positions : Dict Router Nat
  made : List (Call Router)

/-- `_self_replay_captures` of every router. -/
abbrev Captures (Frame Router : Type) [DecidableEq Frame] := Router → Dict Frame (List Experts)

/-- The innermost recompute; the contexts are listed from the inside. -/
def recomputeContext (contexts : List (Context Frame Router)) : Option (Context Frame Router) :=
  contexts.find? (·.recompute)

/-- The innermost recompute is changed. -/
def updateRecompute (f : Context Frame Router → Context Frame Router) :
    List (Context Frame Router) → List (Context Frame Router)
  | [] => []
  | context :: contexts =>
    if context.recompute then f context :: contexts
    else context :: updateRecompute f contexts

/-- `setdefault(frame, []).append(expert_indices)` for every frame whose forward is running. -/
def capture (captures : Captures Frame Router) (router : Router) (expertIndices : Experts)
    (contexts : List (Context Frame Router)) : Captures Frame Router :=
  contexts.foldr (fun context captures =>
    if context.recompute then captures
    else
      let kept := ((captures router).get? context.frame).getD []
      Function.update captures router
        ((captures router).set context.frame (kept ++ [expertIndices]))) captures

/-- The `RuntimeError` of a recompute without captured experts for a call. -/
inductive Error
  | noCapturedExperts
  deriving DecidableEq

/-- `forward` of `_wrap_router`: the experts that the call uses, the contexts and the captures.
The gate is asked once or twice, and gives `own` and `again`. -/
def routerForward (freshReplayRouting gradEnabled : Bool) (router : Router)
    (routedExperts : Option Experts) (own again : List Nat) (contexts : List (Context Frame Router))
    (captures : Captures Frame Router) :
    Except Error Experts × List (Context Frame Router) × Captures Frame Router :=
  if routedExperts.isSome && !freshReplayRouting then
    (.ok (selectExperts freshReplayRouting routedExperts own), contexts, captures)
  else
    let finish := fun (out expertIndices : Experts) (contexts : List (Context Frame Router)) =>
      (.ok out, contexts,
        if gradEnabled then capture captures router expertIndices contexts else captures)
    match recomputeContext contexts with
    | some context =>
      let position := (context.positions.get? router).getD 0
      match (((captures router).get? context.frame).getD [])[position]? with
      | none => (.error .noCapturedExperts, contexts, captures)
      | some expertIndices =>
        finish (selectExperts freshReplayRouting (some expertIndices) own) expertIndices
          (updateRecompute
            (fun c => { c with positions := c.positions.set router (position + 1) }) contexts)
    | none =>
      match routedExperts with
      | some routed =>
        let out := selectExperts freshReplayRouting (some routed) own
        finish out out contexts
      | none =>
        let expertIndices := selectExperts freshReplayRouting none own
        finish (selectExperts freshReplayRouting (some expertIndices) again) expertIndices contexts

/-! ## Threads -/

/-- The contexts of every thread and the captures of every router, with the calls that the forward of
a frame has made. -/
structure System (Thread Frame Router : Type) [DecidableEq Frame] [DecidableEq Router] where
  contexts : Thread → List (Context Frame Router)
  captures : Captures Frame Router
  forwards : Frame → Option (List (Call Router))

/-- No region has been entered. -/
def System.init : System Thread Frame Router := ⟨fun _ => [], fun _ => .empty, fun _ => none⟩

/-- What a thread does: it enters the forward or a recompute of a region, leaves the innermost region, at
its end or before, or calls a router. -/
inductive Event (Thread Frame Router : Type)
  | enterForward (thread : Thread) (frame : Frame)
  | enterRecompute (thread : Thread) (frame : Frame)
  | exit (thread : Thread)
  | call (thread : Thread) (router : Router) (routedExperts : Option Experts) (own again : List Nat)

/-- A recompute repeats the calls of its forward, one after the other, with the same arguments. -/
def repeatsForward (s : System Thread Frame Router) (thread : Thread) (router : Router)
    (routedExperts : Option Experts) (size : Nat) : Bool :=
  match recomputeContext (s.contexts thread) with
  | none => true
  | some context =>
    match ((s.forwards context.frame).getD [])[context.made.length]? with
    | none => false
    | some call => decide (call.router = router ∧ call.routedExperts = routedExperts ∧ call.size = size)

/-- The tensors of a call have one shape. -/
def shapesAgree (routedExperts : Option Experts) (own again : List Nat) : Bool :=
  decide (again.length = own.length) && routedExperts.all fun routed => decide (routed.length = own.length)

/-- A call is one of every forward that is running, but not of those around a recompute that makes
it. -/
def noteForward (call : Call Router) (contexts : List (Context Frame Router))
    (forwards : Frame → Option (List (Call Router))) : Frame → Option (List (Call Router)) :=
  match contexts with
  | [] => forwards
  | context :: contexts =>
    if context.recompute then forwards
    else
      let forwards := noteForward call contexts forwards
      Function.update forwards context.frame (some ((forwards context.frame).getD [] ++ [call]))

/-- A call is one of the innermost recompute. -/
def noteRecompute (call : Call Router) (contexts : List (Context Frame Router)) :
    List (Context Frame Router) :=
  updateRecompute (fun c => { c with made := c.made ++ [call] }) contexts

/-- The next state, and what a call returns.  Every region that is entered forward has a new frame.
A backward, and with it a recompute, may begin anywhere, also in the forward of a region. -/
def System.step (fresh : Router → Bool) (s : System Thread Frame Router) :
    Event Thread Frame Router → Option (System Thread Frame Router × Except Error (Option Experts))
  | .enterForward thread frame =>
    match s.forwards frame with
    | some _ => none
    | none =>
      let contexts := ⟨frame, false, .empty, []⟩ :: s.contexts thread
      some ({ s with contexts := Function.update s.contexts thread contexts,
                     forwards := Function.update s.forwards frame (some []) }, .ok none)
  | .enterRecompute thread frame =>
    if (s.forwards frame).isSome then
      let contexts := ⟨frame, true, .empty, []⟩ :: s.contexts thread
      some ({ s with contexts := Function.update s.contexts thread contexts }, .ok none)
    else none
  | .exit thread =>
    match s.contexts thread with
    | [] => none
    | _ :: contexts =>
      some ({ s with contexts := Function.update s.contexts thread contexts }, .ok none)
  | .call thread router routedExperts own again =>
    if repeatsForward s thread router routedExperts own.length &&
        shapesAgree routedExperts own again then
      match routerForward (fresh router) true router routedExperts own again (s.contexts thread)
        s.captures with
      | (.error e, contexts, captures) =>
        some ({ s with contexts := Function.update s.contexts thread contexts, captures }, .error e)
      | (.ok experts, contexts, captures) =>
        let call := ⟨router, routedExperts, own.length, experts⟩
        some (⟨Function.update s.contexts thread (noteRecompute call contexts), captures,
          noteForward call contexts s.forwards⟩, .ok (some experts))
    else none

end ArcticPlatform.RecomputeRouting
