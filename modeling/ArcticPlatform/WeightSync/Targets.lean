import ArcticPlatform.WeightSync.Transfer

/-!
# Weight sync: one set of weights for many targets

An embedding of `WeightSender.send`.  The weights are an iterable, and each target's
engine passes over it once.  A pass over a list leaves it as it was; a pass over an
iterator, such as a generator, leaves it exhausted.  The first target gets the iterable
itself and only the later ones a copy, which is made when the first pass is over.

Main results:

- Theorem `sendTargets_eq`: what each target is sent, for each kind of iterable.
- Theorem `send_same_iff`: all targets are sent the weights, if and only if a second
  pass finds them or there is none.
-/

namespace ArcticPlatform.WeightSync

open Results List

variable {W ε ρ : Type}

/-! ## Iterables -/

/-- The values that can be passed as weights. -/
inductive Weights (W : Type) where
  /-- A list or a tuple. -/
  | sequence (items : List W)
  /-- Any other object whose `__iter__` starts over. -/
  | reiterable (items : List W)
  /-- A generator or another iterator with these items still to come. -/
  | iterator (rest : List W)
  /-- A function that returns the weights. -/
  | callable (items : List W)

/-- The weights. -/
def Weights.items : Weights W → List W
  | .sequence items | .reiterable items | .iterator items | .callable items => items

/-- A pass over the weights: the items, and the object behind it.  A function is not iterable. -/
def Weights.iterate : Weights W → Option (List W × Weights W)
  | .sequence items => some (items, .sequence items)
  | .reiterable items => some (items, .reiterable items)
  | .iterator rest => some (rest, .iterator [])
  | .callable _ => none

/-- `_replayable_iter`: the iterable to use, and the object behind the call. -/
def replayableIter : Weights W → Option (Weights W × Weights W)
  | .sequence items => some (.sequence items, .sequence items)
  | weights => do
    let (items, weights) ← weights.iterate
    some (.sequence items, weights)

/-! ## Sending -/

/-- The engine of a target: its two ways to send the items of one pass. -/
structure TargetEngine (W ε ρ : Type) where
  sendWeights : List W → Except ε ρ
  sendWeightsDirect : List W → Except ε ρ

/-- `getattr(eng, send_fn)`. -/
def TargetEngine.sendFn (engine : TargetEngine W ε ρ) (direct : Bool) : List W → Except ε ρ :=
  if direct then engine.sendWeightsDirect else engine.sendWeights

/-- The engine of a target in bucket mode. -/
def Engine.target (engine : Engine) (direct : List Weight → Except SendError SendResult) :
    TargetEngine Weight SendError SendResult := ⟨WeightSync.sendWeights engine, direct⟩

/-- What a target has been sent and what its engine returned. -/
structure TargetResult (W ρ : Type) where
  sent : List W
  result : ρ

/-- What `send` raises. -/
inductive TargetError (ε : Type) where
  /-- `TypeError`: the object is not iterable. -/
  | notIterable
  /-- What the engine of a target raises. -/
  | engine (err : ε)
  deriving DecidableEq

/-- A result of a pass; there is none over an object that is not iterable. -/
def iterable {α : Type} : Option α → Except (TargetError ε) α
  | some a => .ok a
  | none => .error .notIterable

/-- The engine sends these items. -/
def sendItems (direct : Bool) (engine : TargetEngine W ε ρ) (items : List W) :
    Except (TargetError ε) (TargetResult W ρ) :=
  match engine.sendFn direct items with
  | .ok result => .ok ⟨items, result⟩
  | .error err => .error (.engine err)

/-- The engine iterates over the weights. -/
def sendOne (direct : Bool) (engine : TargetEngine W ε ρ) (weights : Weights W) :
    Except (TargetError ε) (TargetResult W ρ × Weights W) := do
  let (items, weights) ← iterable weights.iterate
  let r ← sendItems direct engine items
  .ok (r, weights)

/-- The loop over the engines from the `i`-th on. -/
def sendTargets (direct : Bool) :
    Nat → List (TargetEngine W ε ρ) → Weights W → Except (TargetError ε) (List (TargetResult W ρ))
  | _, [], _ => .ok []
  | i, engine :: engines, weights =>
    if 0 < i then do
      let (weightIter, weights) ← iterable (replayableIter weights)
      let (r, _) ← sendOne direct engine weightIter
      let results ← sendTargets direct (i + 1) engines weights
      .ok (r :: results)
    else do
      let (r, weights) ← sendOne direct engine weights
      let results ← sendTargets direct (i + 1) engines weights
      .ok (r :: results)

/-- What `send` returns. -/
inductive SendReport (W ρ : Type) where
  | participateOnly (paramsIterated : Nat)
  | done (targets : List (TargetResult W ρ))

/-- What the targets have been sent. -/
def SendReport.sent : SendReport W ρ → List (List W)
  | .participateOnly _ => []
  | .done targets => targets.map TargetResult.sent

/-- `WeightSender.send`. -/
def send (direct : Bool) (engines : List (TargetEngine W ε ρ)) (weights : Weights W) :
    Except (TargetError ε) (SendReport W ρ) :=
  match engines with
  | [] => do
    let (items, _) ← iterable weights.iterate
    .ok (.participateOnly items.length)
  | engines => do
    let targets ← sendTargets direct 0 engines weights
    .ok (.done targets)

/-! ## One pass after another -/

/-- The items that a second pass over the weights finds. -/
def Weights.again : Weights W → List W
  | .iterator _ => []
  | weights => weights.items

/-- The weights can be iterated. -/
def Weights.IsIterable : Weights W → Prop
  | .callable _ => False
  | _ => True

variable {direct : Bool} {engine : TargetEngine W ε ρ} {engines : List (TargetEngine W ε ρ)}
  {weights : Weights W}

theorem iterate_eq (h : weights.IsIterable) :
    ∃ weights', weights.iterate = some (weights.items, weights') ∧ weights'.IsIterable ∧
      weights'.items = weights.again ∧ weights'.again = weights.again := by
  cases weights with
  | callable items => exact h.elim
  | _ => exact ⟨_, rfl, trivial, rfl, rfl⟩

theorem replayableIter_eq (h : weights.IsIterable) :
    ∃ weights', replayableIter weights = some (.sequence weights.items, weights') ∧
      weights'.IsIterable ∧ weights'.items = weights.again ∧ weights'.again = weights.again := by
  cases weights with
  | callable items => exact h.elim
  | _ => exact ⟨_, rfl, trivial, rfl, rfl⟩

variable {items : List W}

theorem sendOne_eq {weights' : Weights W} (h : weights.iterate = some (items, weights')) :
    sendOne direct engine weights =
      (sendItems direct engine items >>= fun r => .ok (r, weights')) := by
  rw [sendOne, h]
  rfl

theorem mapM_cons_eq :
    (engine :: engines).mapM (fun engine => sendItems direct engine items) =
      (sendItems direct engine items >>= fun r =>
        engines.mapM (fun engine => sendItems direct engine items) >>= fun results =>
          .ok (r :: results)) := mapM_cons

theorem sendTargets_later {i : Nat} (hi : 0 < i) (h : weights.IsIterable)
    (hitems : weights.items = weights.again) :
    sendTargets direct i engines weights =
      engines.mapM fun engine => sendItems direct engine weights.again := by
  induction engines generalizing i weights with
  | nil => rfl
  | cons engine engines ih =>
    obtain ⟨weights', hreplay, hiter', hitems', hagain⟩ := replayableIter_eq h
    have hrest := ih (Nat.succ_pos i) hiter' (hitems'.trans hagain.symm)
    rw [hitems] at hreplay
    have hone : sendOne direct engine (.sequence weights.again) =
        (sendItems direct engine weights.again >>= fun r =>
          .ok (r, .sequence weights.again)) := sendOne_eq rfl
    rw [sendTargets, if_pos hi, hreplay, mapM_cons_eq]
    simp only [iterable, bind_ok, hone, hrest, hagain]
    cases sendItems direct engine weights.again <;> rfl

/-- The first target is sent the weights, and every later one what a second pass finds. -/
theorem sendTargets_eq (h : weights.IsIterable) :
    sendTargets direct 0 (engine :: engines) weights =
      (sendItems direct engine weights.items >>= fun r =>
        engines.mapM (fun engine => sendItems direct engine weights.again) >>= fun results =>
          .ok (r :: results)) := by
  obtain ⟨weights', hiterate, hiter', hitems', hagain⟩ := iterate_eq h
  have hrest : sendTargets direct 1 engines weights' =
      engines.mapM fun engine => sendItems direct engine weights'.again :=
    sendTargets_later one_pos hiter' (hitems'.trans hagain.symm)
  rw [sendTargets, if_neg (lt_irrefl 0), sendOne_eq hiterate]
  rw [hagain] at hrest
  cases sendItems direct engine weights.items with
  | error err => rfl
  | ok r => simp only [bind_ok, zero_add, hrest]

/-! ## What the targets are sent -/

theorem sendItems_ok {r : TargetResult W ρ} (h : sendItems direct engine items = .ok r) :
    r.sent = items := by
  unfold sendItems at h
  split at h
  · rw [← Except.ok.inj h]
  · exact absurd h (by simp)

theorem sent_mapM {results : List (TargetResult W ρ)}
    (h : engines.mapM (fun engine => sendItems direct engine items) = .ok results) :
    results.map TargetResult.sent = engines.map fun _ => items := by
  have hall := mapM_eq_ok.mp h
  clear h
  induction hall with
  | nil => rfl
  | cons hone _ ih => rw [map_cons, map_cons, ih, sendItems_ok hone]

theorem mapM_sendItems_ok
    (h : ∀ engine ∈ engines, ∃ result, engine.sendFn direct items = .ok result) :
    ∃ results, engines.mapM (fun engine => sendItems direct engine items) = .ok results := by
  apply mapM_isOk
  intro engine hengine
  obtain ⟨result, hresult⟩ := h engine hengine
  exact ⟨⟨items, result⟩, by rw [sendItems, hresult]⟩

/-- A second pass finds the weights, or there is no second target. -/
def Weights.Replays (weights : Weights W) (numTargets : Nat) : Prop :=
  weights.IsIterable ∧ (numTargets ≤ 1 ∨ weights.again = weights.items)

/-- Every target is sent the weights, in their order, if and only if the weights can be iterated
and they are not those of a one-shot iterator that a second target needs. -/
theorem send_same_iff (direct : Bool) (engines : List (TargetEngine W ε ρ)) (weights : Weights W)
    (hengines : ∀ engine ∈ engines, ∃ result, engine.sendFn direct weights.items = .ok result) :
    (∃ report, send direct engines weights = .ok report ∧
        report.sent = engines.map fun _ => weights.items) ↔ weights.Replays engines.length := by
  by_cases hiter : weights.IsIterable
  swap
  · cases weights with
    | callable items =>
      refine ⟨fun ⟨report, hsend, _⟩ => ?_, fun h => absurd h.1 hiter⟩
      cases engines with
      | nil => exact absurd hsend (by simp [send, Weights.iterate, iterable, bind_error])
      | cons engine engines =>
        exact absurd hsend (by
          simp [send, sendTargets, sendOne, Weights.iterate, iterable, bind_error])
    | _ => exact absurd trivial hiter
  cases engines with
  | nil =>
    obtain ⟨weights', hiterate, -⟩ := iterate_eq hiter
    refine ⟨fun _ => ⟨hiter, .inl zero_le⟩, fun _ => ?_⟩
    refine ⟨.participateOnly weights.items.length, ?_, rfl⟩
    simp only [send, hiterate, iterable, bind_ok]
  | cons engine engines =>
    obtain ⟨result, hfirst⟩ := hengines engine mem_cons_self
    have hsend : send direct (engine :: engines) weights =
        (engines.mapM (fun engine => sendItems direct engine weights.again) >>= fun results =>
          .ok (.done (⟨weights.items, result⟩ :: results))) := by
      have hone : sendItems direct engine weights.items = .ok ⟨weights.items, result⟩ := by
        rw [sendItems, hfirst]
      simp only [send, sendTargets_eq hiter, hone, bind_ok]
      cases engines.mapM (fun engine => sendItems direct engine weights.again) <;> rfl
    rw [hsend]
    constructor
    · rintro ⟨report, hreport, hsent⟩
      obtain ⟨results, hresults, hdone⟩ := bind_eq_ok.mp hreport
      obtain rfl := Except.ok.inj hdone
      refine ⟨hiter, ?_⟩
      cases engines with
      | nil => exact .inl le_rfl
      | cons second engines =>
        right
        have hmap := sent_mapM hresults
        simp only [SendReport.sent, map_cons, hmap, List.cons.injEq, true_and] at hsent
        exact hsent.1
    · rintro ⟨-, hreplay⟩
      -- a second target exists only if a second pass finds the weights
      have hagain : ∀ other ∈ engines, weights.again = weights.items := by
        intro other hother
        have hpos := length_pos_of_mem hother
        rw [length_cons] at hreplay
        exact hreplay.resolve_left (by omega)
      have hall : ∀ other ∈ engines, ∃ result, other.sendFn direct weights.again = .ok result := by
        intro other hother
        rw [hagain other hother]
        exact hengines other (mem_cons_of_mem _ hother)
      obtain ⟨results, hresults⟩ := mapM_sendItems_ok hall
      refine ⟨_, by rw [hresults, bind_ok], ?_⟩
      simp only [SendReport.sent, map_cons, sent_mapM hresults, List.cons.injEq, true_and]
      apply map_congr_left
      exact hagain

/-- Two engines of one bucket of eight bytes. -/
def twoEngines : List (TargetEngine Weight SendError SendResult) :=
  List.replicate 2 (smallEngine.target fun _ => .error .copy)

theorem send_same_iff_list :
    (∃ report, send false twoEngines (.sequence misalignedWeights) = .ok report ∧
        report.sent = twoEngines.map fun _ => misalignedWeights) ↔
      (Weights.sequence misalignedWeights).Replays twoEngines.length := by
  refine send_same_iff false twoEngines (.sequence misalignedWeights) ?_
  intro engine hengine
  rw [eq_of_mem_replicate hengine]
  exact sendWeights_misaligned_ok

theorem sendItems_target {engine : Engine} {direct : List Weight → Except SendError SendResult}
    {items : List Weight} {result : SendResult} (h : WeightSync.sendWeights engine items = .ok result) :
    sendItems false (engine.target direct) items = .ok ⟨items, result⟩ := by
  have hfn : (engine.target direct).sendFn false = WeightSync.sendWeights engine := by
    simp [TargetEngine.sendFn, Engine.target]
  rw [sendItems, hfn, h]

/-- The second target of a generator gets an update without weights, and nothing is raised. -/
theorem send_generator_twice :
    ∃ report, send false twoEngines (.iterator misalignedWeights) = .ok report ∧
      report.sent = [misalignedWeights, []] := by
  obtain ⟨first, hfirst⟩ := sendWeights_misaligned_ok
  obtain ⟨second, hsecond⟩ : ∃ second, WeightSync.sendWeights smallEngine [] = .ok second :=
    ⟨_, rfl⟩
  refine ⟨.done [⟨misalignedWeights, first⟩, ⟨[], second⟩], ?_, rfl⟩
  have hiter : (Weights.iterator misalignedWeights).IsIterable := trivial
  simp only [twoEngines, List.replicate, send, sendTargets_eq hiter, Weights.items, Weights.again,
    mapM_cons_eq, mapM_nil, sendItems_target hfirst, sendItems_target hsecond, bind_ok, pure,
    Except.pure]

end ArcticPlatform.WeightSync
