import ArcticPlatform.WeightSync.Model
import Mathlib

/-!
# Router replay: manifests, plan and rounds

An embedding of the local phase of the router-replay exchange: every rank gathers
the manifests of all ranks, derives the transfer plan with `_compute_plan`,
decides with `_missing_is_tolerated` whether to proceed, and splits the plan
into rounds with `_plan_rounds`.

Dictionaries that are only looked up are partial functions.  The warning about
ids that several senders hold, and the other log lines, are left out.
-/

namespace ArcticPlatform.RouterReplay

open WeightSync (Dtype)

/-! ## Manifests and transfers -/

/-- `Role`. -/
inductive Role where
  | sender
  | receiver
  deriving DecidableEq

/-- `_PerRankManifest`, with its defaults. -/
structure PerRankManifest where
  role : Role
  rank : Nat
  held : List String := []
  needed : List String := []
  shapes : String → Option (List Nat) := fun _ => none
  dtypes : Option (String → Option Dtype) := none
  discard : Bool := true
  allowMissing : Bool := false
  supportsAllowMissing : Bool := false
  stagingBytes : Option Nat := none
  supportsStagedRounds : Bool := false
  tokenRanges : Option (String → Option (Int × Int)) := none
  supportsTokenRanges : Bool := false

/-- A slice `[start, stop)` of a token axis. -/
structure TokenRange where
  start : Nat
  stop : Nat
  le : start ≤ stop
  deriving DecidableEq

namespace TokenRange

/-- Number of tokens. -/
def length (range : TokenRange) : Nat := range.stop - range.start

/-- `min(max(start, 0), dim)`. -/
def clampStart (start : Int) (dim : Nat) : Nat := (min (max start 0) dim).toNat

/-- `min(max(stop, start), dim)` behind a start that is already clamped. -/
def clampStop (stop : Int) (start dim : Nat) : Nat := (min (max stop start) dim).toNat

/-- A requested range, clipped to the token axis. -/
def clamp (range : Int × Int) (dim : Nat) : TokenRange where
  start := clampStart range.1 dim
  stop := clampStop range.2 (clampStart range.1 dim) dim
  le := by
    simp only [clampStop, clampStart]
    omega

end TokenRange

/-- `_TransferOp`. -/
structure TransferOp where
  senderRank : Nat
  recvRank : Nat
  sampleId : String
  shape : List Nat
  discard : Bool
  dtype : Dtype
  tokenRange : Option TokenRange
  deriving DecidableEq

namespace TransferOp

/-- `transfer_shape`. -/
def transferShape (op : TransferOp) : List Nat :=
  match op.tokenRange with
  | none => op.shape
  | some range => range.length :: op.shape.drop 1

/-- `nbytes`. -/
def nbytes (op : TransferOp) : Nat := op.transferShape.foldl (· * ·) op.dtype.itemsize

end TransferOp

/-- What a rank raises instead of an exchange. -/
inductive ReplayError where
  | keyError (key : String)
  | indexError
  | duplicate (ids : List String) (owners : List (String × List Nat))
  | missing (ids : List String)
  deriving DecidableEq

/-! ## The plan -/

/-- `is_exact_replay_id`. -/
def isExactReplayId (sampleId : String) : Bool := "rr1:".toList.isPrefixOf sampleId.toList

/-- `d[key]`. -/
def lookupKey {α : Type} (d : String → Option α) (key : String) : Except ReplayError α :=
  match d key with
  | some v => .ok v
  | none => .error (.keyError key)

/-- The dictionaries that `_compute_plan` fills from the senders; `ids` has the keys of `owners` in
the order of their insertion. -/
structure Holdings where
  owner : String → Option Nat
  ids : List String
  owners : String → List Nat
  shapeBySid : String → Option (List Nat)
  dtypeBySid : String → Option Dtype

/-- No dictionary has a key. -/
def Holdings.init : Holdings where
  owner := fun _ => none
  ids := []
  owners := fun _ => []
  shapeBySid := fun _ => none
  dtypeBySid := fun _ => none

/-- `owners.setdefault(sid, []).append(rank)`. -/
def Holdings.addOwner (h : Holdings) (sid : String) (rank : Nat) : Holdings :=
  { h with
    ids := if sid ∈ h.ids then h.ids else h.ids ++ [sid]
    owners := Function.update h.owners sid (h.owners sid ++ [rank]) }

/-- The dtype that a sender advertises for an id. -/
def PerRankManifest.dtypeOf (m : PerRankManifest) (sid : String) : Except ReplayError Dtype :=
  match m.dtypes with
  | none => .ok .uint8
  | some dtypes => lookupKey dtypes sid

/-- One held id of a sender: the first sender that holds an id owns it. -/
def Holdings.hold (m : PerRankManifest) (h : Holdings) (sid : String) :
    Except ReplayError Holdings :=
  if (h.owner sid).isSome then .ok (h.addOwner sid m.rank)
  else do
    let shape ← lookupKey m.shapes sid
    let dtype ← m.dtypeOf sid
    .ok { h.addOwner sid m.rank with
      owner := Function.update h.owner sid (some m.rank)
      shapeBySid := Function.update h.shapeBySid sid (some shape)
      dtypeBySid := Function.update h.dtypeBySid sid (some dtype) }

/-- The held ids of a manifest. -/
def Holdings.holdAll (h : Holdings) (m : PerRankManifest) : Except ReplayError Holdings :=
  if m.role ≠ .sender then .ok h else m.held.foldlM (Holdings.hold m) h

/-- The slice of a capture that a receiver asked for. -/
def PerRankManifest.requestedRange (m : PerRankManifest) (slicing : Bool) (sid : String)
    (shape : List Nat) : Except ReplayError (Option TokenRange) :=
  match slicing, m.tokenRanges with
  | true, some ranges =>
    match ranges sid with
    | none => .ok none
    | some range =>
      match shape with
      | [] => .error .indexError
      | dim :: _ => .ok (some (.clamp range dim))
  | _, _ => .ok none

/-- One needed id of a receiver: a transfer from its owner, or a missing id. -/
def planNeed (slicing : Bool) (h : Holdings) (m : PerRankManifest)
    (acc : List TransferOp × Finset String) (sid : String) :
    Except ReplayError (List TransferOp × Finset String) :=
  match h.owner sid with
  | none => .ok (acc.1, insert sid acc.2)
  | some senderRank => do
    let shape ← lookupKey h.shapeBySid sid
    let tokenRange ← m.requestedRange slicing sid shape
    let dtype ← lookupKey h.dtypeBySid sid
    .ok (acc.1 ++ [⟨senderRank, m.rank, sid, shape, m.discard, dtype, tokenRange⟩], acc.2)

/-- The needed ids of a manifest. -/
def planNeeds (slicing : Bool) (h : Holdings) (acc : List TransferOp × Finset String)
    (m : PerRankManifest) : Except ReplayError (List TransferOp × Finset String) :=
  if m.role ≠ .receiver then .ok acc else m.needed.foldlM (planNeed slicing h m) acc

/-- `sorted(manifests, key=rank)`. -/
def byRank (manifests : List PerRankManifest) : List PerRankManifest :=
  manifests.insertionSort fun a b => a.rank ≤ b.rank

/-- `duplicate_exact`: the exact replay ids that are held more than once. -/
def Holdings.duplicateExact (h : Holdings) : List String :=
  (h.ids.filter fun sid => 1 < (h.owners sid).length && isExactReplayId sid).insertionSort (· ≤ ·)

/-- `_compute_plan`. -/
def computePlan (manifests : List PerRankManifest) :
    Except ReplayError (List TransferOp × Finset String) := do
  let slicing := manifests.all (·.supportsTokenRanges)
  let h ← (byRank manifests).foldlM Holdings.holdAll .init
  if h.duplicateExact ≠ [] then
    .error (.duplicate h.duplicateExact (h.duplicateExact.map fun sid => (sid, h.owners sid)))
  else (byRank manifests).foldlM (planNeeds slicing h) ([], ∅)

/-- `_missing_is_tolerated`. -/
def missingIsTolerated (manifests : List PerRankManifest) (missing : Finset String) : Bool :=
  manifests.all (·.supportsAllowMissing) &&
    manifests.all fun m =>
      !(m.role = .receiver && m.needed.any fun sid => sid ∈ missing) || m.allowMissing

/-! ## Rounds -/

/-- The rounds filled so far, and for each sender the round it fills with the bytes it has there. -/
structure RoundState where
  rounds : List (List TransferOp)
  position : Nat → Nat × Nat

/-- Where an operation goes: its sender's round, or the next one when the round has bytes and the
operation would go over the budget. -/
def slotOf (budget : Nat) (position : Nat × Nat) (op : TransferOp) : Nat × Nat :=
  if position.2 > 0 ∧ position.2 + op.nbytes > budget then (position.1 + 1, 0) else position

/-- One operation of the plan. -/
def RoundState.place (budget : Nat) (s : RoundState) (op : TransferOp) : RoundState :=
  let slot := slotOf budget (s.position op.senderRank) op
  let rounds := s.rounds ++ List.replicate (slot.1 + 1 - s.rounds.length) []
  { rounds := rounds.modify slot.1 (· ++ [op])
    position := Function.update s.position op.senderRank (slot.1, slot.2 + op.nbytes) }

/-- The rounds under a budget. -/
def splitRounds (budget : Nat) (plan : List TransferOp) : List (List TransferOp) :=
  (plan.foldl (RoundState.place budget) ⟨[], fun _ => (0, 0)⟩).rounds

/-- `budgets`: the staging budgets that senders advertise. -/
def stagingBudgets (manifests : List PerRankManifest) : List Nat :=
  manifests.filterMap fun m => m.stagingBytes.filter (· ≠ 0)

/-- The smallest staging budget, where rounds are staged. -/
def roundBudget (manifests : List PerRankManifest) : Option Nat :=
  if manifests.all (·.supportsStagedRounds) then (stagingBudgets manifests).min? else none

/-- `_plan_rounds`. -/
def planRounds (manifests : List PerRankManifest) (plan : List TransferOp) :
    List (List TransferOp) :=
  match roundBudget manifests with
  | none => [plan]
  | some budget => if plan = [] then [plan] else splitRounds budget plan

/-- `_exchange_manifest` behind the gather: the plan, the tolerated missing ids and the rounds. -/
def exchangeManifest (manifests : List PerRankManifest) :
    Except ReplayError (List TransferOp × Finset String × List (List TransferOp)) := do
  let (plan, missing) ← computePlan manifests
  if missing ≠ ∅ ∧ ¬ missingIsTolerated manifests missing then
    .error (.missing (missing.sort (· ≤ ·)))
  else .ok (plan, missing, planRounds manifests plan)

end ArcticPlatform.RouterReplay
