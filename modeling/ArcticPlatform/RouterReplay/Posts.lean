import ArcticPlatform.RouterReplay.Exchange

/-!
# Router replay: what the ranks post

Senders and receivers walk a round with separate code and separate rules for what
they skip.

Main results:

- Theorem `length_wire`: a sender posts as many bytes as the receiver expects.
- Theorem `matched_of_served`: sends and receives of a round match.
- Theorem `takeMessages_eq`: each receive gets the bytes of its own operation.
-/

namespace ArcticPlatform.RouterReplay

open Dicts List
open WeightSync (Dtype)

/-! ## Operations that a snapshot serves -/

/-- The snapshot of the sender has the array of the operation, and the range is inside it. -/
structure Served (snapshots : Nat → Dict String Capture) (op : TransferOp) (c : Capture) : Prop where
  found : (snapshots op.senderRank).get? op.sampleId = some c
  shape : c.shape = op.shape
  dtype : c.dtype = op.dtype
  range : ∀ range, op.tokenRange = some range → ∃ dim rest, op.shape = dim :: rest ∧ range.stop ≤ dim

theorem foldl_mul_eq_prod (l : List Nat) (n : Nat) : l.foldl (· * ·) n = n * l.prod := by
  induction l generalizing n with
  | nil => simp
  | cons a l ih =>
    rw [foldl_cons, ih, prod_cons, mul_assoc]

theorem nbytes_eq (op : TransferOp) : op.nbytes = op.dtype.itemsize * op.numel :=
  foldl_mul_eq_prod op.transferShape op.dtype.itemsize

theorem itemsize_ne_zero (d : Dtype) : 0 < d.itemsize := by
  cases d <;> decide

section Served

variable {snapshots : Nat → Dict String Capture} {op : TransferOp} {c : Capture}

section

variable (h : Served snapshots op c)
include h

/-- The bytes of a served operation are those that its receiver expects. -/
theorem length_wire : (wire snapshots op).length = op.nbytes := by
  have hbytes : c.bytes.length = op.shape.prod * op.dtype.itemsize := by
    rw [c.sized, h.shape, h.dtype]
  rw [nbytes_eq, wire, h.found]
  simp only [Option.map_some, Option.getD_some, TransferOp.numel, TransferOp.transferShape]
  cases hrange : op.tokenRange with
  | none =>
    simp only [Capture.payload]
    rw [hbytes, mul_comm]
  | some range =>
    obtain ⟨dim, rest, hshape, hstop⟩ := h.range range hrange
    have hrow : c.rowBytes = rest.prod * op.dtype.itemsize := by
      rw [Capture.rowBytes, h.shape, h.dtype, hshape]
      rfl
    have hlen : range.start + range.length ≤ dim := by
      have := range.le
      simp only [TokenRange.length]
      omega
    simp only [Capture.payload, length_take, length_drop, hbytes, hrow, hshape,
      prod_cons, drop_succ_cons, drop_zero]
    -- The slice ends inside the array.
    have hroom : range.length * (rest.prod * op.dtype.itemsize) ≤
        dim * rest.prod * op.dtype.itemsize - range.start * (rest.prod * op.dtype.itemsize) := by
      rw [mul_assoc dim, ← Nat.sub_mul]
      exact Nat.mul_le_mul_right _ (by omega)
    rw [min_eq_left hroom]
    ring

theorem posted_iff :
    (op.tokenRange = none ∨ (wire snapshots op).length > 0) ↔
      (op.tokenRange = none ∨ op.numel > 0) := by
  rw [length_wire h, nbytes_eq]
  have hpos : 0 < op.dtype.itemsize * op.numel ↔ 0 < op.numel := by
    rw [Nat.mul_pos_iff_of_pos_left (itemsize_ne_zero op.dtype)]
  simp only [gt_iff_lt, hpos]

theorem fillDest_wire :
    ∃ dest, fillDest op (wire snapshots op) = some dest ∧ dest.shape = op.transferShape ∧
      dest.dtype = op.dtype ∧ dest.bytes = c.payload op.tokenRange ∧ dest.nbytes = op.nbytes := by
  have hlength := length_wire h
  have hwire : wire snapshots op = c.payload op.tokenRange := by
    rw [wire, h.found]
    rfl
  have hguard : (op.dtype = .uint8 ∨ op.dtype = .uint16) ∧
      (wire snapshots op).length = op.transferShape.prod * op.dtype.itemsize := by
    refine ⟨h.dtype ▸ c.cached, ?_⟩
    rw [hlength, nbytes_eq, mul_comm]
    rfl
  rw [fillDest, dif_pos hguard]
  refine ⟨_, rfl, rfl, rfl, hwire, ?_⟩
  rw [nbytes_eq]
  rfl

theorem wire_of_skipped (hskip : ¬ (op.tokenRange = none ∨ op.numel > 0)) :
    wire snapshots op = [] := by
  have hnone := mt (posted_iff h).mp hskip
  push Not at hnone
  exact length_eq_zero_iff.mp (Nat.le_zero.mp hnone.2)

end

end Served

/-! ## Posts of a round -/

/-- The operations from `s` to `r` that are posted. -/
def postedBetween (round : List TransferOp) (s r : Nat) : List TransferOp :=
  round.filter fun op => op.senderRank = s ∧ op.recvRank = r ∧ (op.tokenRange = none ∨ op.numel > 0)

variable {snapshots : Nat → Dict String Capture}

theorem messages_eq {round : List TransferOp} (h : ∀ op ∈ round, ∃ c, Served snapshots op c)
    (s r : Nat) :
    messages snapshots round s r = (postedBetween round s r).map (wire snapshots) := by
  induction round with
  | nil => rfl
  | cons op round ih =>
    obtain ⟨c, hc⟩ := h op mem_cons_self
    have hposted := posted_iff hc
    have ih := ih fun x hx => h x (mem_cons_of_mem _ hx)
    simp only [messages, sendPosts, postedBetween] at ih ⊢
    by_cases hs : op.senderRank = s
    · by_cases hpost : op.tokenRange = none ∨ op.numel > 0
      · have hwire := hposted.mpr hpost
        by_cases hr : op.recvRank = r
        · simp [hs, hr, hpost, hwire, ih]
        · simp [hs, hr, hwire, ih]
      · have hwire := mt hposted.mp hpost
        simp [hs, hpost, hwire, ih]
    · simp [hs, ih]

theorem expected_eq (round : List TransferOp) (s r : Nat) :
    expected round r s = (postedBetween round s r).map TransferOp.nbytes := by
  induction round with
  | nil => rfl
  | cons op round ih =>
    simp only [expected, recvPosts, postedBetween] at ih ⊢
    by_cases hr : op.recvRank = r
    · by_cases hpost : op.tokenRange = none ∨ op.numel > 0
      · by_cases hs : op.senderRank = s
        · simp [hs, hr, hpost, ih]
        · simp [hs, hr, hpost, ih]
      · simp [hr, hpost, ih]
    · simp [hr, ih]

/-- The sends and receives of a round match. -/
theorem matched_of_served {round : List TransferOp}
    (h : ∀ op ∈ round, ∃ c, Served snapshots op c) (s r : Nat) : Matched snapshots round s r := by
  rw [Matched, messages_eq h, expected_eq, map_map]
  apply map_congr_left
  intro op hop
  obtain ⟨c, hc⟩ := h op (mem_of_mem_filter hop)
  exact length_wire hc

/-- Each receive gets the bytes of its own operation. -/
theorem takeMessages_eq {ops : List TransferOp} (h : ∀ op ∈ ops, ∃ c, Served snapshots op c)
    {channels : Nat → List (List UInt8)} (hchannels : ∀ s, channels s =
      (ops.filter fun op => op.senderRank = s ∧ (op.tokenRange = none ∨ op.numel > 0)).map
        (wire snapshots)) :
    ∃ dests, takeMessages channels ops = some dests ∧ dests.map Prod.fst = ops ∧
      ∀ p ∈ dests, fillDest p.1 (wire snapshots p.1) = some p.2 := by
  induction ops generalizing channels with
  | nil => exact ⟨[], rfl, rfl, by simp⟩
  | cons op ops ih =>
    obtain ⟨c, hc⟩ := h op mem_cons_self
    have hrest : ∀ x ∈ ops, ∃ c, Served snapshots x c := fun x hx => h x (mem_cons_of_mem _ hx)
    obtain ⟨dest, hdest, -⟩ := fillDest_wire hc
    by_cases hpost : op.tokenRange = none ∨ op.numel > 0
    · -- The message at the head of the sender's channel is the one of this operation.
      have hhead : channels op.senderRank = wire snapshots op ::
          (ops.filter fun x => x.senderRank = op.senderRank ∧
            (x.tokenRange = none ∨ x.numel > 0)).map (wire snapshots) := by
        rw [hchannels, filter_cons_of_pos (by simpa using hpost), map_cons]
      have htail : ∀ s, Function.update channels op.senderRank
          ((ops.filter fun x => x.senderRank = op.senderRank ∧
            (x.tokenRange = none ∨ x.numel > 0)).map (wire snapshots)) s =
          (ops.filter fun x => x.senderRank = s ∧ (x.tokenRange = none ∨ x.numel > 0)).map
            (wire snapshots) := by
        intro s
        by_cases hs : s = op.senderRank
        · rw [hs, Function.update_self]
        · rw [Function.update_of_ne hs, hchannels, filter_cons_of_neg (by simp [Ne.symm hs])]
      obtain ⟨dests, hdests, hfst, hfill⟩ := ih hrest htail
      refine ⟨(op, dest) :: dests, ?_, by simp [hfst], ?_⟩
      · rw [takeMessages, if_pos hpost, hhead]
        simp only [hdest, hdests, Option.bind_eq_bind, Option.bind_some]
      · intro p hp
        rcases mem_cons.mp hp with rfl | hp
        · exact hdest
        · exact hfill p hp
    · have htail : ∀ s, channels s =
          (ops.filter fun x => x.senderRank = s ∧ (x.tokenRange = none ∨ x.numel > 0)).map
            (wire snapshots) := by
        intro s
        rw [hchannels, filter_cons_of_neg (by simp only [decide_eq_true_eq]; tauto)]
      obtain ⟨dests, hdests, hfst, hfill⟩ := ih hrest htail
      refine ⟨(op, dest) :: dests, ?_, by simp [hfst], ?_⟩
      · rw [wire_of_skipped hc hpost] at hdest
        rw [takeMessages, if_neg hpost]
        simp only [hdest, hdests, Option.bind_eq_bind, Option.bind_some]
      · intro p hp
        rcases mem_cons.mp hp with rfl | hp
        · exact hdest
        · exact hfill p hp

end ArcticPlatform.RouterReplay
