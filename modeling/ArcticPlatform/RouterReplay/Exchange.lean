import ArcticPlatform.RouterReplay.Cache

/-!
# Router replay: the data exchange

An embedding of `send` and `recv` of `RouterReplayGroup`: the manifests
they publish, what `_run_data_exchange_send` and `_run_data_exchange_recv` post
in each round, and what the receivers store.

Each round is one fused group of point-to-point operations.  Between two ranks the
operations of a group are matched in the order in which they are posted; a group of
a rank completes when all its operations are matched by ranks that are in the same
round.  Times are only recorded by an RX cache, so one reading of the clock stands
for all of an exchange.  Streams and devices are left out.
-/

namespace ArcticPlatform.RouterReplay

open Dicts
open WeightSync (Dtype)

/-! ## Arrays -/

/-- An array that a cache holds, as raw bytes in row order; `_coerce` leaves two dtypes. -/
structure Capture where
  shape : List Nat
  dtype : Dtype
  bytes : List UInt8
  cached : dtype = .uint8 ∨ dtype = .uint16
  sized : bytes.length = shape.prod * dtype.itemsize

namespace Capture

/-- Bytes of an array. -/
def nbytes (c : Capture) : Nat := c.dtype.itemsize * c.shape.prod

/-- Bytes of one row of the token axis. -/
def rowBytes (c : Capture) : Nat := (c.shape.drop 1).prod * c.dtype.itemsize

/-- `t[start:stop].contiguous().view(torch.uint8)`, or the whole array. -/
def payload (c : Capture) : Option TokenRange → List UInt8
  | none => c.bytes
  | some range => (c.bytes.drop (range.start * c.rowBytes)).take (range.length * c.rowBytes)

end Capture

/-! ## Ranks -/

/-- An RX cache. -/
abbrev RxCache := { c : Cache Capture // c.tx = none }

/-- A rank with the arguments of its call of `send` or `recv`.  A sender has a snapshot of its TX
cache, and stages when the cache is not on the device of the group; a receiver has an RX cache. -/
inductive Peer where
  | sender (rank : Nat) (snapshot : Dict String Capture) (stagingBytes : Option Nat)
  | receiver (rank : Nat) (needed : List String) (discard allowMissing : Bool)
    (tokenRanges : Option (String → Option (Int × Int))) (cacheRx : RxCache)

namespace Peer

/-- Rank of a peer. -/
def rank : Peer → Nat
  | .sender rank _ _ => rank
  | .receiver rank _ _ _ _ _ => rank

/-- `_build_send_manifest` and `_build_recv_manifest`. -/
def manifest : Peer → PerRankManifest
  | .sender rank snapshot stagingBytes =>
    { role := .sender
      rank := rank
      held := snapshot.keys
      shapes := fun sid => (snapshot.get? sid).map Capture.shape
      dtypes := some fun sid => (snapshot.get? sid).map Capture.dtype
      supportsAllowMissing := true
      stagingBytes := stagingBytes
      supportsStagedRounds := true
      supportsTokenRanges := true }
  | .receiver rank needed discard allowMissing tokenRanges _ =>
    { role := .receiver
      rank := rank
      needed := needed
      discard := discard
      allowMissing := allowMissing
      supportsAllowMissing := true
      supportsStagedRounds := true
      tokenRanges := tokenRanges
      supportsTokenRanges := true }

/-- The snapshot of a sender. -/
def snapshot : Peer → Dict String Capture
  | .sender _ snapshot _ => snapshot
  | .receiver _ _ _ _ _ _ => .empty

end Peer

/-- The snapshot of the sender at a rank. -/
def snapshotAt (peers : List Peer) (rank : Nat) : Dict String Capture :=
  ((peers.find? fun p => p.rank = rank).map Peer.snapshot).getD .empty

/-! ## What is posted -/

/-- Elements that an operation moves. -/
def TransferOp.numel (op : TransferOp) : Nat := op.transferShape.prod

section Posts

variable (snapshots : Nat → Dict String Capture)

/-- The bytes that the sender of an operation reads from its snapshot. -/
def wire (op : TransferOp) : List UInt8 :=
  (((snapshots op.senderRank).get? op.sampleId).map fun t => t.payload op.tokenRange).getD []

/-- The sends of a rank in a round: destinations and bytes. -/
def sendPosts (rank : Nat) (round : List TransferOp) : List (Nat × List UInt8) :=
  (round.filter fun op => op.senderRank = rank).filterMap fun op =>
    if op.tokenRange = none ∨ (wire snapshots op).length > 0 then
      some (op.recvRank, wire snapshots op)
    else none

/-- The receives of a rank in a round: sources and sizes. -/
def recvPosts (rank : Nat) (round : List TransferOp) : List (Nat × Nat) :=
  (round.filter fun op => op.recvRank = rank).filterMap fun op =>
    if op.tokenRange = none ∨ op.numel > 0 then some (op.senderRank, op.nbytes) else none

/-- What rank `s` sends to rank `r` in a round, in the order of the posts. -/
def messages (round : List TransferOp) (s r : Nat) : List (List UInt8) :=
  ((sendPosts snapshots s round).filter fun p => p.1 = r).map Prod.snd

/-- The sizes that rank `r` expects from rank `s` in a round, in the order of the posts. -/
def expected (round : List TransferOp) (r s : Nat) : List Nat :=
  ((recvPosts r round).filter fun p => p.1 = s).map Prod.snd

/-- The sends from `s` to `r` match the receives at `r` from `s`. -/
def Matched (round : List TransferOp) (s r : Nat) : Prop :=
  (messages snapshots round s r).map List.length = expected round r s

end Posts

/-! ## What is received -/

/-- The destination of an operation, filled with the bytes that arrived. -/
def fillDest (op : TransferOp) (m : List UInt8) : Option Capture :=
  if h : (op.dtype = .uint8 ∨ op.dtype = .uint16) ∧
      m.length = op.transferShape.prod * op.dtype.itemsize then
    some ⟨op.transferShape, op.dtype, m, h.1, h.2⟩
  else none

/-- The arrays of a round: each receive takes the next message of its source. -/
def takeMessages : (Nat → List (List UInt8)) → List TransferOp → Option (List (TransferOp × Capture))
  | _, [] => some []
  | channels, op :: rest =>
    if op.tokenRange = none ∨ op.numel > 0 then
      match channels op.senderRank with
      | [] => none
      | m :: ms => do
        let dest ← fillDest op m
        let dests ← takeMessages (Function.update channels op.senderRank ms) rest
        some ((op, dest) :: dests)
    else do
      let dest ← fillDest op []
      let dests ← takeMessages channels rest
      some ((op, dest) :: dests)

/-- The puts of a round; the first one that is refused ends it. -/
def putAll (now : ℚ) : List (TransferOp × Capture) → Cache Capture →
    Except CacheError Unit × Cache Capture
  | [], c => (.ok (), c)
  | (op, dest) :: rest, c =>
    match c.put id Capture.nbytes op.sampleId dest now with
    | (.ok _, c) => putAll now rest c
    | (.error e, c) => (.error e, c)

/-! ## Rounds of all ranks -/

/-- Where a rank is: in the round loop, waiting for a group that does not complete, or out of the
loop with an exception. -/
inductive Status where
  | active
  | blocked
  | stale (sampleId : String)
  | refused (error : CacheError)
  deriving DecidableEq

/-- The ranks between two rounds; `groups` counts the groups that a rank has opened. -/
structure World where
  status : Nat → Status
  caches : Nat → Cache Capture
  groups : Nat → Nat

section Rounds

variable (snapshots : Nat → Dict String Capture) (ranks : List Nat) (now : ℚ)

/-- The group of a rank completes: its posts match those of every other rank, and the ranks it has
posts for are in the round. -/
def World.Completes (w : World) (round : List TransferOp) (p : Nat) : Prop :=
  ∀ q ∈ ranks, Matched snapshots round p q ∧ Matched snapshots round q p ∧
    (messages snapshots round p q ≠ [] ∨ expected round p q ≠ [] → w.status q = .active)

instance (w : World) (round : List TransferOp) (p : Nat) :
    Decidable (w.Completes snapshots ranks round p) :=
  inferInstanceAs (Decidable (∀ q ∈ ranks,
    (messages snapshots round p q).map List.length = expected round q p ∧
    (messages snapshots round q p).map List.length = expected round p q ∧
    (messages snapshots round p q ≠ [] ∨ expected round p q ≠ [] → w.status q = .active)))

/-- What a round comes to for a rank in the loop. -/
def World.rankRound (w : World) (round : List TransferOp) (p : Nat) : Status × Cache Capture :=
  if w.Completes snapshots ranks round p then
    match takeMessages (fun s => messages snapshots round s p)
        (round.filter fun op => op.recvRank = p) with
    | none => (.blocked, w.caches p)
    | some dests =>
      match putAll now dests (w.caches p) with
      | (.ok _, c) => (.active, c)
      | (.error e, c) => (.refused e, c)
  else (.blocked, w.caches p)

/-- One round of all ranks. -/
def World.step (w : World) (round : List TransferOp) : World where
  status p := if w.status p = .active then (w.rankRound snapshots ranks now round p).1 else w.status p
  caches p := if w.status p = .active then (w.rankRound snapshots ranks now round p).2 else w.caches p
  groups p := if w.status p = .active then w.groups p + 1 else w.groups p

end Rounds

/-- The first operation of a rank that its snapshot cannot serve. -/
def staleOp (snapshots : Nat → Dict String Capture) (plan : List TransferOp) (rank : Nat) :
    Option TransferOp :=
  plan.find? fun op => op.senderRank = rank ∧ ((snapshots rank).get? op.sampleId).isNone

/-- The ranks before the first round: RX caches are cleared, and senders have looked their arrays
up. -/
def World.init (peers : List Peer) (plan : List TransferOp) : World where
  status p :=
    match staleOp (snapshotAt peers) plan p with
    | some op => .stale op.sampleId
    | none => .active
  caches p :=
    match peers.find? fun q => q.rank = p with
    | some (.receiver _ _ _ _ _ cacheRx) => cacheRx.val.clear
    | _ => .init 0 none
  groups _ := 0

/-- The exchange of all ranks. -/
def runExchange (peers : List Peer) (now : ℚ) (rounds : List (List TransferOp)) : World :=
  rounds.foldl (World.step (snapshotAt peers) (peers.map Peer.rank) now)
    (.init peers rounds.flatten)

end ArcticPlatform.RouterReplay
