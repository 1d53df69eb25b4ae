import ArcticPlatform.WeightSync.Metadata
import ArcticPlatform.Library.Results

/-!
# Weight sync: how weights are packed into buckets

The sender packs greedily: a weight joins the current bucket unless its data or its
metadata would overflow it, and the last chunk of an oversized weight stays in its
bucket.  So the bucket that a weight finds depends on the weights before it alone.

Main results:

- Theorem `sendWeight_ok`: one round of the loop over the weights.
- Theorem `sendChunks_ok`: one round of the chunk loop.
- Theorem `fill_sendWeight`: the bucket after a round.
-/

namespace ArcticPlatform.WeightSync

open PyJson Slices Results

/-! ## Greedy packing -/

/-- The metadata of the current bucket and the number of its bytes. -/
structure Fill where
  entries : List Entry
  offset : Nat

/-- The empty bucket. -/
def Fill.empty : Fill := ⟨[], 0⟩

/-- Where the last chunk of an oversized weight starts. -/
def lastChunkStart (bucketSize : Nat) (w : Weight) : Nat :=
  (w.nbytes - 1) / bucketSize * bucketSize

/-- A weight that fits a bucket joins the current one. -/
def joins (bucketSize : Nat) (f : Fill) (w : Weight) : Bool :=
  decide (w.nbytes ≤ bucketSize) && !overflows bucketSize f.entries f.offset w

/-- The bucket behind a weight. -/
def Fill.add (bucketSize : Nat) (f : Fill) (w : Weight) : Fill :=
  if bucketSize < w.nbytes then
    let start := lastChunkStart bucketSize w
    ⟨[w.chunkEntry start (w.nbytes - start)], w.nbytes - start⟩
  else if overflows bucketSize f.entries f.offset w then ⟨[w.entry 0], w.nbytes⟩
  else ⟨f.entries ++ [w.entry f.offset], f.offset + w.nbytes⟩

/-- The bucket of a state. -/
def SendState.fill (s : SendState) : Fill := ⟨s.bucketMeta, s.offset⟩

/-- The data buffer of the current bucket. -/
def SendState.buf (s : SendState) : List UInt8 := s.dataBufs s.packIdx

/-- The buffers have the bucket size, and an empty bucket has no bytes. -/
structure StateOK (bucketSize : Nat) (s : SendState) : Prop where
  length_dataBufs : ∀ idx, (s.dataBufs idx).length = bucketSize
  offset_le : s.offset ≤ bucketSize
  offset_nil : s.bucketMeta = [] → s.offset = 0

theorem stateOK_initial (engine : Engine) : StateOK engine.bucketSize engine.initial :=
  ⟨engine.length_dataBufs, zero_le, fun _ => rfl⟩

/-! ## Flushing -/

/-- The state behind a flush that is not the last one. -/
def SendState.flushed (s : SendState) (metaBuf : List UInt8) : SendState :=
  { s with packIdx := !s.packIdx, bucketMeta := [], offset := 0, nBuckets := s.nBuckets + 1,
           sent := s.sent ++ [⟨metaBuf, s.buf⟩] }

theorem nextBucket_ok {s s' : SendState} (h : nextBucket s = .ok s') :
    ∃ metaBuf, writeMeta s.bucketMeta false = .ok metaBuf ∧ s' = s.flushed metaBuf := by
  obtain ⟨s₁, hflush, h⟩ := bind_eq_ok.mp h
  obtain ⟨metaBuf, hmeta, hs₁⟩ := bind_eq_ok.mp hflush
  refine ⟨metaBuf, hmeta, ?_⟩
  obtain rfl := Except.ok.inj hs₁
  exact (Except.ok.inj h).symm

theorem flushIf_ok {flush : Bool} {s s' : SendState} (h : flushIf flush s = .ok s') :
    flush = false ∧ s' = s ∨ flush = true ∧ ∃ metaBuf,
      writeMeta s.bucketMeta false = .ok metaBuf ∧ s' = s.flushed metaBuf := by
  cases flush with
  | false => exact .inl ⟨rfl, (Except.ok.inj h).symm⟩
  | true => exact .inr ⟨rfl, nextBucket_ok h⟩

variable {s : SendState}

theorem stateOK_flushed {bucketSize : Nat} (hs : StateOK bucketSize s) (metaBuf : List UInt8) :
    StateOK bucketSize (s.flushed metaBuf) := ⟨hs.length_dataBufs, zero_le, fun _ => rfl⟩

/-! ## Copying -/

/-- A buffer with bytes written at a position. -/
def overwrite (buf : List UInt8) (start : Nat) (bytes : List UInt8) : List UInt8 :=
  buf.take start ++ bytes ++ buf.drop (start + bytes.length)

variable {bytes : List UInt8}

theorem length_overwrite {buf : List UInt8} {start : Nat} (hle : start + bytes.length ≤ buf.length) :
    (overwrite buf start bytes).length = buf.length := by
  rw [overwrite, List.length_append, List.length_append, List.length_take, List.length_drop]
  omega

/-- The state with bytes copied to the buffer of the current bucket. -/
def SendState.copied (s : SendState) (start : Nat) (bytes : List UInt8) : SendState :=
  { s with dataBufs := Function.update s.dataBufs s.packIdx (overwrite s.buf start bytes) }

theorem copyBytes_eq {start stop : Nat} (hstop : start + bytes.length = stop)
    (hle : stop ≤ s.buf.length) : copyBytes s start stop bytes = .ok (s.copied start bytes) := by
  have hslice : (slice s.buf start stop).length = bytes.length := by
    rw [length_slice (by omega) hle]
    omega
  have hassign : assign s.buf start stop bytes = some (overwrite s.buf start bytes) := by
    unfold assign
    rw [hslice, if_pos rfl]
    rfl
  unfold copyBytes
  rw [← SendState.buf, hassign]
  rfl

theorem buf_copied (s : SendState) (start : Nat) (bytes : List UInt8) :
    (s.copied start bytes).buf = overwrite s.buf start bytes := Function.update_self ..

theorem length_copied {bucketSize : Nat} (hs : StateOK bucketSize s) {start : Nat}
    (hle : start + bytes.length ≤ bucketSize) (idx : Bool) :
    ((s.copied start bytes).dataBufs idx).length = bucketSize := by
  have hbuf : s.buf.length = bucketSize := hs.length_dataBufs s.packIdx
  by_cases hidx : idx = s.packIdx
  · subst hidx
    have hself := buf_copied s start bytes
    rw [SendState.buf] at hself
    rw [← hbuf, ← length_overwrite (hle.trans hbuf.ge), ← hself]
    rfl
  · have hother : (s.copied start bytes).dataBufs idx = s.dataBufs idx :=
      Function.update_of_ne hidx ..
    rw [hother]
    exact hs.length_dataBufs idx

/-! ## The chunk loop -/

/-- The bytes of a chunk. -/
def Weight.chunkBytes (w : Weight) (tensorOffset chunkNbytes : Nat) : List UInt8 :=
  slice w.bytes tensorOffset (tensorOffset + chunkNbytes)

theorem length_chunkBytes {w : Weight} {t c : Nat} (h : t + c ≤ w.nbytes) :
    (w.chunkBytes t c).length = c := by
  rw [Weight.chunkBytes, length_slice (Nat.le_add_right _ _) h]
  omega

/-- The state behind a chunk. -/
def SendState.chunked (s : SendState) (w : Weight) (tensorOffset chunkNbytes : Nat) : SendState :=
  { s.copied 0 (w.chunkBytes tensorOffset chunkNbytes) with
    bucketMeta := [w.chunkEntry tensorOffset chunkNbytes], offset := chunkNbytes }

section Chunks

variable {bucketSize : Nat} {hpos : 1 ≤ bucketSize} {w : Weight} {s s' : SendState} {t : Nat}

theorem packChunk_eq (hs : StateOK bucketSize s) (ht : t < w.nbytes) :
    packChunk bucketSize w s t =
      (checkSingle (w.chunkEntry t (min bucketSize (w.nbytes - t))) >>= fun _ =>
        .ok (s.chunked w t (min bucketSize (w.nbytes - t)))) := by
  have hlen := length_chunkBytes (w := w) (t := t) (c := min bucketSize (w.nbytes - t)) (by omega)
  have hcopy : copyBytes s 0 (min bucketSize (w.nbytes - t))
      (slice w.bytes t (t + min bucketSize (w.nbytes - t))) =
      .ok (s.copied 0 (w.chunkBytes t (min bucketSize (w.nbytes - t)))) := by
    refine copyBytes_eq ?_ ?_
    · rw [zero_add]
      exact hlen
    · rw [SendState.buf, hs.length_dataBufs]
      omega
  unfold packChunk
  simp only [hcopy, bind_ok]
  rfl

theorem stateOK_chunked (hs : StateOK bucketSize s) {c : Nat} (hc : c ≤ bucketSize)
    (htc : t + c ≤ w.nbytes) : StateOK bucketSize (s.chunked w t c) := by
  refine ⟨fun idx => ?_, hc, fun h => absurd h (by simp [SendState.chunked])⟩
  have hlen := length_chunkBytes htc
  have hfit : 0 + (w.chunkBytes t c).length ≤ bucketSize := by omega
  exact length_copied hs hfit idx

theorem sendChunks_done (ht : w.nbytes ≤ t) : sendChunks bucketSize hpos w s t = .ok s := by
  rw [sendChunks, if_neg (by omega)]

/-- One round of the chunk loop: the last chunk stays in its bucket, any other is flushed. -/
theorem sendChunks_ok (hs : StateOK bucketSize s) (ht : t < w.nbytes)
    (h : sendChunks bucketSize hpos w s t = .ok s') :
    (w.nbytes ≤ t + bucketSize ∧ s' = s.chunked w t (w.nbytes - t)) ∨
      (t + bucketSize < w.nbytes ∧ ∃ metaBuf,
        writeMeta [w.chunkEntry t bucketSize] false = .ok metaBuf ∧
        sendChunks bucketSize hpos w ((s.chunked w t bucketSize).flushed metaBuf)
          (t + bucketSize) = .ok s') := by
  rw [sendChunks, if_pos ht, packChunk_eq hs ht] at h
  obtain ⟨s₁, hpack, h⟩ := bind_eq_ok.mp h
  obtain ⟨-, -, hs₁⟩ := bind_eq_ok.mp hpack
  obtain rfl := Except.ok.inj hs₁
  obtain ⟨s₂, hflush, h⟩ := bind_eq_ok.mp h
  rcases lt_or_ge (t + bucketSize) w.nbytes with hlt | hge
  · rw [min_eq_left (by omega)] at hflush h
    rcases flushIf_ok hflush with ⟨hno, -⟩ | ⟨-, metaBuf, hmeta, rfl⟩
    · exact absurd hlt (by simpa using hno)
    · exact .inr ⟨hlt, metaBuf, hmeta, h⟩
  · rw [min_eq_right (by omega)] at hflush h
    rcases flushIf_ok hflush with ⟨-, rfl⟩ | ⟨hyes, -⟩
    · rw [sendChunks_done (by omega)] at h
      exact .inl ⟨hge, (Except.ok.inj h).symm⟩
    · have : t + (w.nbytes - t) < w.nbytes := by simpa using hyes
      omega

theorem lastChunkStart_eq {k : Nat} (hlt : k * bucketSize < w.nbytes)
    (hge : w.nbytes ≤ k * bucketSize + bucketSize) :
    lastChunkStart bucketSize w = k * bucketSize := by
  have hdiv : (w.nbytes - 1) / bucketSize = k := by
    apply Nat.div_eq_of_lt_le
    · omega
    · rw [add_mul, one_mul]
      omega
  rw [lastChunkStart, hdiv]

theorem fill_sendChunks (hs : StateOK bucketSize s) {k : Nat} (hlt : k * bucketSize < w.nbytes)
    (h : sendChunks bucketSize hpos w s (k * bucketSize) = .ok s') :
    StateOK bucketSize s' ∧ s'.fill = ⟨[w.chunkEntry (lastChunkStart bucketSize w)
      (w.nbytes - lastChunkStart bucketSize w)], w.nbytes - lastChunkStart bucketSize w⟩ := by
  induction hrest : w.nbytes - k * bucketSize using Nat.strong_induction_on
    generalizing k s with
  | _ rest ih =>
    rcases sendChunks_ok hs hlt h with ⟨hge, rfl⟩ | ⟨hmore, metaBuf, -, hnext⟩
    · rw [lastChunkStart_eq hlt hge]
      exact ⟨stateOK_chunked hs (by omega) (by omega), rfl⟩
    · have hsucc : k * bucketSize + bucketSize = (k + 1) * bucketSize := by
        rw [add_mul, one_mul]
      rw [hsucc] at hmore hnext
      exact ih (w.nbytes - (k + 1) * bucketSize) (by omega)
        (stateOK_flushed (stateOK_chunked hs le_rfl (by omega)) metaBuf) hmore hnext rfl

end Chunks

/-! ## The loop over the weights -/

section Weights

variable {bucketSize : Nat} {hpos : 1 ≤ bucketSize} {w : Weight} {s s' : SendState}

/-- The state behind a weight that joins the current bucket. -/
def SendState.joined (s : SendState) (w : Weight) : SendState :=
  { s.copied s.offset w.bytes with
    bucketMeta := s.bucketMeta ++ [w.entry s.offset], offset := s.offset + w.nbytes,
    nParams := s.nParams + 1 }

/-- A weight joins the current bucket, starts the next one or is sent in chunks. -/
theorem sendWeight_ok (hs : StateOK bucketSize s) (h : sendWeight bucketSize hpos s w = .ok s') :
    (joins bucketSize s.fill w = true ∧ s.offset + w.nbytes ≤ bucketSize ∧ s' = s.joined w) ∨
      (joins bucketSize s.fill w = false ∧ w.nbytes ≤ bucketSize ∧ ∃ metaBuf,
        writeMeta s.bucketMeta false = .ok metaBuf ∧ s' = (s.flushed metaBuf).joined w) ∨
      (bucketSize < w.nbytes ∧ ∃ s₁ s₂, (s.bucketMeta = [] ∧ s₁ = s ∨ s.bucketMeta ≠ [] ∧ ∃ metaBuf,
          writeMeta s.bucketMeta false = .ok metaBuf ∧ s₁ = s.flushed metaBuf) ∧
        sendChunks bucketSize hpos w s₁ 0 = .ok s₂ ∧ s' = { s₂ with nParams := s₂.nParams + 1 }) := by
  have hjoin : ∀ {s₁ : SendState}, StateOK bucketSize s₁ → s₁.offset + w.nbytes ≤ bucketSize → (do
        checkSingle (w.entry s₁.offset)
        let s ← copyBytes s₁ s₁.offset (s₁.offset + w.nbytes) w.bytes
        Except.ok { s with
          bucketMeta := s.bucketMeta ++ [w.entry s₁.offset], offset := s.offset + w.nbytes,
          nParams := s.nParams + 1 }) = Except.ok s' → s' = s₁.joined w := by
    intro s₁ hs₁ hle h
    obtain ⟨-, -, h⟩ := bind_eq_ok.mp h
    have hcopy : copyBytes s₁ s₁.offset (s₁.offset + w.nbytes) w.bytes =
        .ok (s₁.copied s₁.offset w.bytes) :=
      copyBytes_eq rfl (by rw [SendState.buf, hs₁.length_dataBufs]; exact hle)
    rw [hcopy] at h
    exact (Except.ok.inj h).symm
  by_cases hbig : bucketSize < w.nbytes
  · rw [sendWeight, if_pos hbig] at h
    refine .inr (.inr ⟨hbig, ?_⟩)
    obtain ⟨s₁, hfirst, h⟩ := bind_eq_ok.mp h
    obtain ⟨s₂, hchunks, h⟩ := bind_eq_ok.mp h
    refine ⟨s₁, s₂, ?_, hchunks, (Except.ok.inj h).symm⟩
    rcases flushIf_ok hfirst with ⟨hempty, rfl⟩ | ⟨hne, hflush⟩
    · exact .inl ⟨by simpa using hempty, rfl⟩
    · exact .inr ⟨by simpa using hne, hflush⟩
  · rw [sendWeight, if_neg hbig] at h
    have hsmall : w.nbytes ≤ bucketSize := le_of_not_gt hbig
    obtain ⟨s₁, hfirst, h⟩ := bind_eq_ok.mp h
    rcases flushIf_ok hfirst with ⟨hover, hs₁⟩ | ⟨hover, metaBuf, hmeta, rfl⟩
    · rw [hs₁] at h
      have hle : s.offset + w.nbytes ≤ bucketSize := by
        by_cases hnil : s.bucketMeta = []
        · rw [hs.offset_nil hnil]
          omega
        · simp only [overflows, Bool.and_eq_false_iff, Bool.or_eq_false_iff,
            decide_eq_false_iff_not, Bool.not_eq_false', List.isEmpty_iff] at hover
          have := (hover.resolve_left hnil).1
          omega
      refine .inl ⟨?_, hle, hjoin hs hle h⟩
      simp [joins, SendState.fill, hover, hsmall]
    · refine .inr (.inl ⟨?_, hsmall, metaBuf, hmeta, ?_⟩)
      · simp [joins, SendState.fill, hover]
      · refine hjoin (stateOK_flushed hs metaBuf) ?_ h
        rw [SendState.flushed]
        simpa using hsmall

theorem stateOK_joined (hs : StateOK bucketSize s) (hle : s.offset + w.nbytes ≤ bucketSize) :
    StateOK bucketSize (s.joined w) := by
  refine ⟨fun idx => length_copied hs hle idx, hle, fun h => absurd h ?_⟩
  simp [SendState.joined]

/-- The bucket behind a round. -/
theorem fill_sendWeight (hs : StateOK bucketSize s) (h : sendWeight bucketSize hpos s w = .ok s') :
    StateOK bucketSize s' ∧ s'.fill = s.fill.add bucketSize w := by
  rcases sendWeight_ok hs h with ⟨hjoins, hle, rfl⟩ | ⟨hjoins, hsmall, metaBuf, -, rfl⟩ |
    ⟨hbig, s₁, s₂, hs₁, hchunks, rfl⟩
  · refine ⟨stateOK_joined hs hle, ?_⟩
    simp only [joins, Bool.and_eq_true, decide_eq_true_eq, Bool.not_eq_true'] at hjoins
    rw [Fill.add, if_neg (Nat.not_lt.mpr hjoins.1), if_neg (by simp [hjoins.2])]
    rfl
  · refine ⟨stateOK_joined (stateOK_flushed hs metaBuf) ?_, ?_⟩
    · rw [SendState.flushed]
      simpa using hsmall
    · simp only [joins, Bool.and_eq_false_iff, decide_eq_false_iff_not,
        Bool.not_eq_false'] at hjoins
      rw [Fill.add, if_neg (Nat.not_lt.mpr hsmall), if_pos (hjoins.resolve_left (by omega))]
      simp only [SendState.joined, SendState.flushed, SendState.fill, List.nil_append, zero_add]
  · have hs₁ok : StateOK bucketSize s₁ := by
      rcases hs₁ with ⟨-, rfl⟩ | ⟨-, metaBuf, -, rfl⟩
      · exact hs
      · exact stateOK_flushed hs metaBuf
    have hchunks' : sendChunks bucketSize hpos w s₁ (0 * bucketSize) = .ok s₂ := by
      rwa [zero_mul]
    obtain ⟨hs₂, hfill⟩ := fill_sendChunks hs₁ok (by omega) hchunks'
    refine ⟨⟨hs₂.length_dataBufs, hs₂.offset_le, hs₂.offset_nil⟩, ?_⟩
    rw [Fill.add, if_pos hbig]
    exact hfill

end Weights

end ArcticPlatform.WeightSync
