import ArcticPlatform.WeightSync.MetaBound
import Mathlib

/-!
# Weight sync: what the receiver yields

The receiver is followed along the buckets that the sender has flushed.  While the
sender packs, either the receiver will have yielded the weights packed so far once
it has read the current bucket, or it will have raised.  It raises at a weight that
joins a bucket at an offset that is no multiple of its element size: the receiver
views the bytes in place.

Main results:

- Theorem `yields_sendWeight`: one more weight.
- Theorem `receiveWeights_sent_iff`: the transfer is exact if and only if every
  weight that joins a bucket is aligned.
-/

namespace ArcticPlatform.WeightSync

open PyJson Slices Results List

section Receiver

variable {uninit : Nat → UInt8}

/-! ## Reading buckets -/

theorem receiveEntries_append (data : List UInt8) (parts : PartialTensors) (a b : List Json) :
    receiveEntries uninit data parts (a ++ b) = (receiveEntries uninit data parts a >>= fun first =>
        receiveEntries uninit data first.2 b >>= fun second =>
          .ok (first.1 ++ second.1, second.2)) := by
  induction a generalizing parts with
  | nil =>
    rw [nil_append, receiveEntries, bind_ok]
    cases receiveEntries uninit data parts b <;> rfl
  | cons tm a ih =>
    rw [cons_append, receiveEntries, receiveEntries]
    cases receiveEntry uninit data parts tm with
    | error e => rfl
    | ok first =>
      simp only [bind_ok, ih]
      cases receiveEntries uninit data first.2 a with
      | error e => rfl
      | ok second =>
        simp only [bind_ok]
        cases receiveEntries uninit data second.2 b with
        | error e => rfl
        | ok third => simp only [bind_ok, append_assoc]

/-- The receiver has read the buckets, yielded the tensors and keeps the partial tensors. -/
def Reaches (uninit : Nat → UInt8) (sent : List Bucket) (yielded : List Tensor)
    (parts : PartialTensors) : Prop :=
  ∀ rest, receiveLoop uninit ∅ (sent ++ rest) =
    (receiveLoop uninit parts rest >>= fun more => .ok (yielded ++ more.1, more.2))

/-- The receiver raises while it reads the buckets. -/
def Raises (uninit : Nat → UInt8) (sent : List Bucket) : Prop :=
  ∀ rest, ∃ err, receiveLoop uninit ∅ (sent ++ rest) = .error err

theorem reaches_nil : Reaches uninit [] [] ∅ := by
  intro rest
  rw [nil_append]
  cases receiveLoop uninit ∅ rest <;> rfl

variable {parts : PartialTensors} {entries : List Entry}

theorem receiveLoop_cons {metaBuf : List UInt8} (hmeta : writeMeta entries false = .ok metaBuf)
    (data : List UInt8) (rest : List Bucket) :
    receiveLoop uninit parts (⟨metaBuf, data⟩ :: rest) =
      (receiveEntries uninit data parts (entries.map Entry.toJson) >>= fun first =>
        receiveLoop uninit first.2 rest >>= fun more => .ok (first.1 ++ more.1, more.2)) := by
  conv_lhs => unfold receiveLoop
  rw [parseMeta_writeMeta hmeta, Option.bind_some, readMeta_metaJson]
  rfl

theorem receiveLoop_last {metaBuf : List UInt8} (hmeta : writeMeta entries true = .ok metaBuf)
    (data : List UInt8) (rest : List Bucket) :
    receiveLoop uninit parts (⟨metaBuf, data⟩ :: rest) =
      (receiveEntries uninit data parts (entries.map Entry.toJson) >>= fun first =>
        if first.2.entries = [] then .ok (first.1, rest)
        else .error (.incomplete (first.2.keys.mergeSort fun a b => decide (a ≤ b)))) := by
  conv_lhs => unfold receiveLoop
  rw [parseMeta_writeMeta hmeta, Option.bind_some, readMeta_metaJson]
  rfl

variable {sent : List Bucket}

theorem Reaches.flush {yielded more : List Tensor} {parts parts' : PartialTensors}
    (h : Reaches uninit sent yielded parts) {metaBuf data : List UInt8}
    (hmeta : writeMeta entries false = .ok metaBuf)
    (hentries : receiveEntries uninit data parts (entries.map Entry.toJson) = .ok (more, parts')) :
    Reaches uninit (sent ++ [⟨metaBuf, data⟩]) (yielded ++ more) parts' := by
  intro rest
  rw [append_assoc, h, singleton_append, receiveLoop_cons hmeta, hentries, bind_ok]
  cases receiveLoop uninit parts' rest with
  | error e => rfl
  | ok result => simp only [bind_ok, append_assoc]

theorem Reaches.raises {yielded : List Tensor} (h : Reaches uninit sent yielded parts)
    {metaBuf data : List UInt8} {err : ReceiveError} (hmeta : writeMeta entries false = .ok metaBuf)
    (hentries : receiveEntries uninit data parts (entries.map Entry.toJson) = .error err) :
    Raises uninit (sent ++ [⟨metaBuf, data⟩]) := by
  intro rest
  refine ⟨err, ?_⟩
  rw [append_assoc, h, singleton_append, receiveLoop_cons hmeta, hentries]
  rfl

theorem Raises.append (h : Raises uninit sent) (more : List Bucket) :
    Raises uninit (sent ++ more) := by
  intro rest
  rw [append_assoc]
  exact h (more ++ rest)

/-! ## Whole weights -/

theorem itemsize_pos (d : Dtype) : 0 < d.itemsize := by
  cases d <;> decide

variable {w : Weight}

theorem receiveEntry_whole (uninit : Nat → UInt8) (parts : PartialTensors) {data : List UInt8}
    {offset : Nat} (hle : offset + w.nbytes ≤ data.length)
    (hslice : slice data offset (offset + w.nbytes) = w.bytes) :
    receiveEntry uninit data parts (w.entry offset).toJson =
      if offset % w.dtype.itemsize = 0 then .ok ([w.tensor], parts) else .error .view := by
  have hpos := itemsize_pos w.dtype
  have hmod : w.bytes.length % w.dtype.itemsize = 0 := by
    rw [w.length_bytes, Nat.mul_mod_left]
  have hdiv : w.bytes.length / w.dtype.itemsize = w.shape.prod := by
    rw [w.length_bytes, Nat.mul_div_cancel _ hpos]
  unfold receiveEntry
  rw [readEntry_toJson (e := w.entry offset) (d := w.dtype) rfl]
  simp only [Weight.entry, Option.map_none, Option.getD_none, and_self, if_true, hslice,
    min_eq_left (show offset ≤ data.length by omega), viewAs, hmod, hdiv, and_true]
  split_ifs <;> rfl

/-! ## Chunks -/

/-- The tensor of a weight of which the first `t` bytes have been received. -/
def rebuilt (uninit : Nat → UInt8) (w : Weight) (t : Nat) : List UInt8 :=
  w.bytes.take t ++ ((List.range w.nbytes).map uninit).drop t

/-- The partial tensors when `t` bytes of a weight have been received. -/
def partsAt (uninit : Nat → UInt8) (w : Weight) (t : Nat) : PartialTensors :=
  if t = 0 then ∅
  else AList.insert w.name ⟨⟨w.name, w.shape, w.dtype, rebuilt uninit w t⟩, t, w.nbytes⟩ ∅

variable {t c : Nat}

theorem partialState_partsAt :
    partialState uninit (partsAt uninit w t) ⟨w.name, w.shape, w.dtype, 0, c, t, w.nbytes⟩ =
      .ok ⟨⟨w.name, w.shape, w.dtype, rebuilt uninit w t⟩, t, w.nbytes⟩ := by
  unfold partialState partsAt
  by_cases ht : t = 0
  · subst ht
    have hbytes : w.shape.prod * w.dtype.itemsize = w.nbytes := w.length_bytes.symm
    simp only [if_true, AList.lookup_empty, ne_eq, not_true_eq_false, if_false, hbytes, rebuilt,
      take_zero, nil_append, drop_zero]
  · simp only [if_neg ht, AList.lookup_insert]

theorem assign_rebuilt (htc : t + c ≤ w.nbytes) :
    assign (rebuilt uninit w t) t (t + c) (w.chunkBytes t c) = some (rebuilt uninit w (t + c)) := by
  have htake : (w.bytes.take t).length = t := by
    rw [length_take]
    have : t + c ≤ w.bytes.length := htc
    omega
  have hchunk := length_chunkBytes htc
  set rest := (List.range w.nbytes).map uninit with hrest
  have hsplit : rebuilt uninit w t =
      w.bytes.take t ++ (rest.drop t).take c ++ rest.drop (t + c) := by
    rw [rebuilt, append_assoc, ← drop_drop, take_append_drop]
  have hmid : ((rest.drop t).take c).length = c := by
    rw [length_take, length_drop, hrest, length_map, length_range]
    omega
  have hbytes : w.bytes.take t ++ w.chunkBytes t c = w.bytes.take (t + c) := by
    rw [Weight.chunkBytes, slice, Nat.add_sub_cancel_left, ← take_add]
  rw [hsplit, assign_append htake (by rw [hmid]) (by rw [hmid, hchunk]), hbytes]
  rfl

theorem erase_partsAt (uninit : Nat → UInt8) (w : Weight) (t : Nat) :
    (partsAt uninit w t).erase w.name = ∅ := by
  unfold partsAt
  split_ifs with ht
  · rfl
  · apply AList.ext
    simp [AList.erase]

theorem insert_partsAt (uninit : Nat → UInt8) (w : Weight) (hc : 0 < c) :
    (partsAt uninit w t).insert w.name
      ⟨⟨w.name, w.shape, w.dtype, rebuilt uninit w (t + c)⟩, t + c, w.nbytes⟩ =
      partsAt uninit w (t + c) := by
  unfold partsAt
  rw [if_neg (show t + c ≠ 0 by omega)]
  split_ifs with ht
  · rfl
  · exact AList.insert_insert ..

theorem rebuilt_all (w : Weight) : rebuilt uninit w w.nbytes = w.bytes := by
  rw [rebuilt, drop_of_length_le (by simp), append_nil]
  exact take_length

theorem receiveChunk_eq (hc : 0 < c) (htc : t + c ≤ w.nbytes) :
    receiveChunk uninit (partsAt uninit w t) ⟨w.name, w.shape, w.dtype, 0, c, t, w.nbytes⟩
      (w.chunkBytes t c) =
      if t + c = w.nbytes then .ok ([w.tensor], ∅) else .ok ([], partsAt uninit w (t + c)) := by
  unfold receiveChunk
  rw [partialState_partsAt, bind_ok]
  simp only [ne_eq, not_true_eq_false, or_self, if_false, if_neg (Nat.not_lt.mpr htc),
    assign_rebuilt htc, erase_partsAt, insert_partsAt uninit w hc]
  split_ifs with hend
  · rw [hend, rebuilt_all]
    rfl
  · rfl

theorem receiveEntry_chunk (uninit : Nat → UInt8) {data : List UInt8} (hc : 0 < c)
    (hlt : c < w.nbytes) (htc : t + c ≤ w.nbytes) (hdata : data.take c = w.chunkBytes t c) :
    receiveEntry uninit data (partsAt uninit w t) (w.chunkEntry t c).toJson =
      if t + c = w.nbytes then .ok ([w.tensor], ∅) else .ok ([], partsAt uninit w (t + c)) := by
  have hslice : slice data 0 (0 + c) = w.chunkBytes t c := by
    rw [slice, drop_zero, zero_add, tsub_zero, hdata]
  have hwhole : ¬(t = 0 ∧ w.nbytes = c) := by omega
  have hread : readEntry (w.chunkEntry t c).toJson =
      some ⟨w.name, w.shape, w.dtype, 0, c, t, w.nbytes⟩ :=
    readEntry_toJson (e := w.chunkEntry t c) (d := w.dtype) rfl
  unfold receiveEntry
  rw [hread]
  simp only [if_neg hwhole, hslice]
  exact receiveChunk_eq hc htc

end Receiver

/-! ## The current bucket -/

section Sender

variable {uninit : Nat → UInt8} {bucketSize : Nat} {hpos : 1 ≤ bucketSize} {w : Weight}
  {s s' : SendState} {done : List Weight}

/-- A buffer that has the bytes of the current bucket. -/
def SendState.Holds (s : SendState) (bucketSize : Nat) (data : List UInt8) : Prop :=
  data.length = bucketSize ∧ data.take s.offset = s.buf.take s.offset

/-- The receiver yields the weights once it has read the current bucket. -/
def Yields (uninit : Nat → UInt8) (bucketSize : Nat) (s : SendState) (done : List Weight) : Prop :=
  ∃ yielded more parts, Reaches uninit s.sent yielded parts ∧ (∀ data, s.Holds bucketSize data →
      receiveEntries uninit data parts (s.bucketMeta.map Entry.toJson) = .ok (more, ∅)) ∧
    yielded ++ more = done.map Weight.tensor

/-- The receiver raises at the latest when it reads the current bucket. -/
def Doomed (uninit : Nat → UInt8) (bucketSize : Nat) (s : SendState) : Prop :=
  Raises uninit s.sent ∨ ∃ yielded parts, Reaches uninit s.sent yielded parts ∧
    ∀ data, s.Holds bucketSize data →
      ∃ err, receiveEntries uninit data parts (s.bucketMeta.map Entry.toJson) = .error err

theorem holds_buf (hs : StateOK bucketSize s) : s.Holds bucketSize s.buf :=
  ⟨hs.length_dataBufs s.packIdx, rfl⟩

theorem yields_initial (engine : Engine) : Yields uninit engine.bucketSize engine.initial [] :=
  ⟨[], [], ∅, reaches_nil, fun _ _ => rfl, rfl⟩

theorem Yields.reaches (h : Yields uninit bucketSize s done) (hs : StateOK bucketSize s)
    (hnil : s.bucketMeta = []) : Reaches uninit s.sent (done.map Weight.tensor) ∅ := by
  obtain ⟨yielded, more, parts, hreach, hread, hdone⟩ := h
  have hempty := hread s.buf (holds_buf hs)
  rw [hnil, map_nil, receiveEntries] at hempty
  obtain ⟨rfl, rfl⟩ := Prod.mk.inj (Except.ok.inj hempty)
  rw [← hdone, append_nil]
  exact hreach

theorem Yields.flushed (h : Yields uninit bucketSize s done) (hs : StateOK bucketSize s)
    {metaBuf : List UInt8} (hmeta : writeMeta s.bucketMeta false = .ok metaBuf) :
    Reaches uninit (s.flushed metaBuf).sent (done.map Weight.tensor) ∅ := by
  obtain ⟨yielded, more, parts, hreach, hread, hdone⟩ := h
  rw [← hdone]
  exact hreach.flush hmeta (hread s.buf (holds_buf hs))

theorem yields_of_reaches (hnil : s.bucketMeta = [])
    (h : Reaches uninit s.sent (done.map Weight.tensor) ∅) : Yields uninit bucketSize s done :=
  ⟨_, [], ∅, h, fun _ _ => by rw [hnil]; rfl, append_nil _⟩

theorem Doomed.flushed (h : Doomed uninit bucketSize s) (hs : StateOK bucketSize s)
    {metaBuf : List UInt8} (hmeta : writeMeta s.bucketMeta false = .ok metaBuf) :
    Raises uninit (s.flushed metaBuf).sent := by
  rcases h with h | ⟨yielded, parts, hreach, hread⟩
  · exact h.append _
  · obtain ⟨err, herr⟩ := hread s.buf (holds_buf hs)
    exact hreach.raises hmeta herr

theorem Doomed.raises (h : Doomed uninit bucketSize s) (hs : StateOK bucketSize s)
    (hnil : s.bucketMeta = []) : Raises uninit s.sent := by
  rcases h with h | ⟨yielded, parts, -, hread⟩
  · exact h
  · obtain ⟨err, herr⟩ := hread s.buf (holds_buf hs)
    rw [hnil] at herr
    exact absurd herr (by simp [receiveEntries])

/-! ## One more weight in the bucket -/

variable {data : List UInt8}

theorem holds_joined (hs : StateOK bucketSize s) (hle : s.offset + w.nbytes ≤ bucketSize)
    (h : (s.joined w).Holds bucketSize data) :
    s.Holds bucketSize data ∧ slice data s.offset (s.offset + w.nbytes) = w.bytes := by
  obtain ⟨hlen, htake⟩ := h
  have hbuf : s.buf.length = bucketSize := hs.length_dataBufs s.packIdx
  have hprefix : (s.buf.take s.offset).length = s.offset := by
    rw [length_take]
    omega
  have hjoined : (s.joined w).buf.take (s.joined w).offset = s.buf.take s.offset ++ w.bytes := by
    have : (s.joined w).buf = overwrite s.buf s.offset w.bytes := buf_copied s s.offset w.bytes
    rw [this, overwrite]
    refine take_left' ?_
    rw [length_append, hprefix]
    rfl
  rw [hjoined] at htake
  have htake' : data.take (s.offset + w.nbytes) = s.buf.take s.offset ++ w.bytes := htake
  have hdata : data = s.buf.take s.offset ++ w.bytes ++ data.drop (s.offset + w.nbytes) := by
    rw [← htake', take_append_drop]
  refine ⟨⟨hlen, ?_⟩, ?_⟩
  · rw [hdata, append_assoc, take_left' hprefix]
  · conv_lhs => rw [hdata]
    exact slice_append hprefix rfl

theorem receiveEntries_joined (hs : StateOK bucketSize s) (hle : s.offset + w.nbytes ≤ bucketSize)
    (hdata : (s.joined w).Holds bucketSize data) {parts parts' : PartialTensors}
    {more : List Tensor}
    (h : receiveEntries uninit data parts (s.bucketMeta.map Entry.toJson) = .ok (more, parts')) :
    receiveEntries uninit data parts ((s.joined w).bucketMeta.map Entry.toJson) =
      if s.offset % w.dtype.itemsize = 0 then .ok (more ++ [w.tensor], parts')
      else .error .view := by
  obtain ⟨⟨hlen, -⟩, hslice⟩ := holds_joined hs hle hdata
  have hwhole := receiveEntry_whole uninit parts'
    (show s.offset + w.nbytes ≤ data.length by omega) hslice
  have hmeta : (s.joined w).bucketMeta.map Entry.toJson =
      s.bucketMeta.map Entry.toJson ++ [(w.entry s.offset).toJson] := by
    rw [SendState.joined, map_append]
    rfl
  rw [hmeta, receiveEntries_append, h, bind_ok, receiveEntries, hwhole]
  split_ifs with haligned
  · simp only [bind_ok, receiveEntries, append_nil]
  · rfl

theorem Yields.joined (h : Yields uninit bucketSize s done) (hs : StateOK bucketSize s)
    (hle : s.offset + w.nbytes ≤ bucketSize) (haligned : s.offset % w.dtype.itemsize = 0) :
    Yields uninit bucketSize (s.joined w) (done ++ [w]) := by
  obtain ⟨yielded, more, parts, hreach, hread, hdone⟩ := h
  refine ⟨yielded, more ++ [w.tensor], parts, hreach, fun data hdata => ?_, ?_⟩
  · rw [receiveEntries_joined hs hle hdata (hread data (holds_joined hs hle hdata).1),
      if_pos haligned]
  · rw [← append_assoc, hdone, map_append, map_singleton]

theorem Yields.doomed (h : Yields uninit bucketSize s done) (hs : StateOK bucketSize s)
    (hle : s.offset + w.nbytes ≤ bucketSize) (haligned : s.offset % w.dtype.itemsize ≠ 0) :
    Doomed uninit bucketSize (s.joined w) := by
  obtain ⟨yielded, more, parts, hreach, hread, -⟩ := h
  refine .inr ⟨yielded, parts, hreach, fun data hdata => ⟨.view, ?_⟩⟩
  rw [receiveEntries_joined hs hle hdata (hread data (holds_joined hs hle hdata).1),
    if_neg haligned]

theorem Doomed.joined (h : Doomed uninit bucketSize s) (hs : StateOK bucketSize s)
    (hle : s.offset + w.nbytes ≤ bucketSize) : Doomed uninit bucketSize (s.joined w) := by
  rcases h with h | ⟨yielded, parts, hreach, hread⟩
  · exact .inl h
  · refine .inr ⟨yielded, parts, hreach, fun data hdata => ?_⟩
    obtain ⟨err, herr⟩ := hread data (holds_joined hs hle hdata).1
    have hmeta : (s.joined w).bucketMeta.map Entry.toJson =
        s.bucketMeta.map Entry.toJson ++ [(w.entry s.offset).toJson] := by
      rw [SendState.joined, map_append]
      rfl
    refine ⟨err, ?_⟩
    rw [hmeta, receiveEntries_append, herr]
    rfl

/-! ## Chunks of an oversized weight -/

theorem holds_chunked {t c : Nat} (htc : t + c ≤ w.nbytes)
    (h : (s.chunked w t c).Holds bucketSize data) : data.take c = w.chunkBytes t c := by
  have hbuf : (s.chunked w t c).buf = overwrite s.buf 0 (w.chunkBytes t c) :=
    buf_copied s 0 (w.chunkBytes t c)
  have htake : data.take c = (overwrite s.buf 0 (w.chunkBytes t c)).take c := hbuf ▸ h.2
  rw [htake, overwrite, take_zero, nil_append, take_left' (length_chunkBytes htc)]

theorem yields_sendChunks (hs : StateOK bucketSize s) {t : Nat} (ht : t < w.nbytes)
    (hbig : bucketSize < w.nbytes)
    (hreach : Reaches uninit s.sent (done.map Weight.tensor) (partsAt uninit w t))
    (h : sendChunks bucketSize hpos w s t = .ok s') :
    Yields uninit bucketSize s' (done ++ [w]) := by
  induction hrest : w.nbytes - t using Nat.strong_induction_on generalizing t s with
  | _ rest ih =>
    rcases sendChunks_ok hs ht h with ⟨hge, rfl⟩ | ⟨hmore, metaBuf, hmeta, hnext⟩
    · refine ⟨_, [w.tensor], partsAt uninit w t, hreach, fun data hdata => ?_, by simp⟩
      have hchunk := receiveEntry_chunk uninit (show 0 < w.nbytes - t by omega)
        (show w.nbytes - t < w.nbytes by omega) (by omega) (holds_chunked (by omega) hdata)
      rw [if_pos (by omega)] at hchunk
      simp only [SendState.chunked, map_cons, map_nil, receiveEntries, hchunk, bind_ok]
      rfl
    · have hs₁ : StateOK bucketSize (s.chunked w t bucketSize) :=
        stateOK_chunked hs le_rfl (by omega)
      have hchunk := receiveEntry_chunk uninit (c := bucketSize) (by omega) hbig
        (by omega) (holds_chunked (by omega) (holds_buf hs₁))
      rw [if_neg (by omega)] at hchunk
      have hentries : receiveEntries uninit (s.chunked w t bucketSize).buf (partsAt uninit w t)
          ([w.chunkEntry t bucketSize].map Entry.toJson) =
          .ok ([], partsAt uninit w (t + bucketSize)) := by
        simp only [map_cons, map_nil, receiveEntries, hchunk, bind_ok]
        rfl
      have hreach' := hreach.flush hmeta hentries
      rw [append_nil] at hreach'
      exact ih (w.nbytes - (t + bucketSize)) (by omega) (stateOK_flushed hs₁ metaBuf) hmore
        hreach' hnext rfl

theorem sent_sendChunks (hs : StateOK bucketSize s) {t : Nat} (ht : t < w.nbytes)
    (h : sendChunks bucketSize hpos w s t = .ok s') : ∃ more, s'.sent = s.sent ++ more := by
  induction hrest : w.nbytes - t using Nat.strong_induction_on generalizing t s with
  | _ rest ih =>
    rcases sendChunks_ok hs ht h with ⟨hge, rfl⟩ | ⟨hmore, metaBuf, -, hnext⟩
    · exact ⟨[], (append_nil _).symm⟩
    · obtain ⟨more, hsent⟩ := ih (w.nbytes - (t + bucketSize)) (by omega)
        (stateOK_flushed (stateOK_chunked hs le_rfl (by omega)) metaBuf) hmore hnext rfl
      refine ⟨⟨metaBuf, (s.chunked w t bucketSize).buf⟩ :: more, ?_⟩
      rw [hsent, SendState.flushed, append_assoc]
      rfl

/-! ## The loop over the weights -/

section

variable (hs : StateOK bucketSize s)
include hs

theorem stateOK_beforeChunks {s₁ : SendState}
    (h : s.bucketMeta = [] ∧ s₁ = s ∨ s.bucketMeta ≠ [] ∧ ∃ metaBuf,
      writeMeta s.bucketMeta false = .ok metaBuf ∧ s₁ = s.flushed metaBuf) :
    StateOK bucketSize s₁ := by
  rcases h with ⟨-, rfl⟩ | ⟨-, metaBuf, -, rfl⟩
  · exact hs
  · exact stateOK_flushed hs metaBuf

/-- One more weight that does not join a bucket out of alignment. -/
theorem yields_sendWeight (hyields : Yields uninit bucketSize s done)
    (haligned : joins bucketSize s.fill w = true → s.offset % w.dtype.itemsize = 0)
    (h : sendWeight bucketSize hpos s w = .ok s') :
    Yields uninit bucketSize s' (done ++ [w]) := by
  rcases sendWeight_ok hs h with ⟨hjoins, hle, rfl⟩ | ⟨-, hsmall, metaBuf, hmeta, rfl⟩ |
    ⟨hbig, s₁, s₂, hs₁, hchunks, rfl⟩
  · exact hyields.joined hs hle (haligned hjoins)
  · have hflushed : Yields uninit bucketSize (s.flushed metaBuf) done :=
      yields_of_reaches rfl (hyields.flushed hs hmeta)
    have hle : (s.flushed metaBuf).offset + w.nbytes ≤ bucketSize := by
      rw [SendState.flushed]
      simpa using hsmall
    exact hflushed.joined (stateOK_flushed hs metaBuf) hle (Nat.zero_mod _)
  · have hreach : Reaches uninit s₁.sent (done.map Weight.tensor) (partsAt uninit w 0) := by
      rcases hs₁ with ⟨hnil, rfl⟩ | ⟨-, metaBuf, hmeta, rfl⟩
      · exact hyields.reaches hs hnil
      · exact hyields.flushed hs hmeta
    have hchunked : Yields uninit bucketSize s₂ (done ++ [w]) :=
      yields_sendChunks (stateOK_beforeChunks hs hs₁) (by omega) hbig hreach hchunks
    exact hchunked

theorem doomed_of_misaligned
    (hyields : Yields uninit bucketSize s done) (hjoins : joins bucketSize s.fill w = true)
    (haligned : s.offset % w.dtype.itemsize ≠ 0) (h : sendWeight bucketSize hpos s w = .ok s') :
    Doomed uninit bucketSize s' := by
  rcases sendWeight_ok hs h with ⟨-, hle, rfl⟩ | ⟨hno, -⟩ | ⟨hbig, -⟩
  · exact hyields.doomed hs hle haligned
  · rw [hjoins] at hno
    exact absurd hno (by decide)
  · simp only [joins, Bool.and_eq_true, decide_eq_true_eq] at hjoins
    omega

theorem doomed_sendWeight (hdoomed : Doomed uninit bucketSize s)
    (h : sendWeight bucketSize hpos s w = .ok s') : Doomed uninit bucketSize s' := by
  rcases sendWeight_ok hs h with ⟨-, hle, rfl⟩ | ⟨-, hsmall, metaBuf, hmeta, rfl⟩ |
    ⟨hbig, s₁, s₂, hs₁, hchunks, rfl⟩
  · exact hdoomed.joined hs hle
  · exact .inl (hdoomed.flushed hs hmeta)
  · have hraises : Raises uninit s₁.sent := by
      rcases hs₁ with ⟨hnil, rfl⟩ | ⟨-, metaBuf, hmeta, rfl⟩
      · exact hdoomed.raises hs hnil
      · exact hdoomed.flushed hs hmeta
    obtain ⟨more, hsent⟩ := sent_sendChunks (stateOK_beforeChunks hs hs₁) (by omega) hchunks
    refine .inl ?_
    have : s₂.sent = s₁.sent ++ more := hsent
    simp only [this]
    exact hraises.append more

end

end Sender

/-! ## Whole transfers -/

/-- Every weight that joins a bucket starts at a multiple of its element size. -/
def Aligned (bucketSize : Nat) : Fill → List Weight → Prop
  | _, [] => True
  | f, w :: rest =>
    (joins bucketSize f w = true → f.offset % w.dtype.itemsize = 0) ∧
      Aligned bucketSize (f.add bucketSize w) rest

section Transfers

variable {uninit : Nat → UInt8} {bucketSize : Nat} {hpos : 1 ≤ bucketSize} {s s' : SendState}

theorem doomed_run (weights : List Weight) (hs : StateOK bucketSize s)
    (hdoomed : Doomed uninit bucketSize s)
    (h : weights.foldlM (sendWeight bucketSize hpos) s = .ok s') :
    StateOK bucketSize s' ∧ Doomed uninit bucketSize s' := by
  induction weights generalizing s with
  | nil =>
    obtain rfl := Except.ok.inj h
    exact ⟨hs, hdoomed⟩
  | cons w weights ih =>
    rw [foldlM_cons] at h
    obtain ⟨s₁, hw, h⟩ := bind_eq_ok.mp h
    exact ih (fill_sendWeight hs hw).1 (doomed_sendWeight hs hdoomed hw) h

/-- After the whole list the receiver yields the weights if they are aligned, and raises
otherwise. -/
theorem yields_or_doomed_run (uninit : Nat → UInt8) (weights : List Weight) {done : List Weight}
    (hs : StateOK bucketSize s) (hyields : Yields uninit bucketSize s done)
    (h : weights.foldlM (sendWeight bucketSize hpos) s = .ok s') :
    StateOK bucketSize s' ∧
      (Aligned bucketSize s.fill weights → Yields uninit bucketSize s' (done ++ weights)) ∧
      (¬Aligned bucketSize s.fill weights → Doomed uninit bucketSize s') := by
  induction weights generalizing s done with
  | nil =>
    obtain rfl := Except.ok.inj h
    exact ⟨hs, fun _ => (append_nil done).symm ▸ hyields, fun hno => absurd trivial hno⟩
  | cons w weights ih =>
    rw [foldlM_cons] at h
    obtain ⟨s₁, hw, h⟩ := bind_eq_ok.mp h
    obtain ⟨hs₁, hfill⟩ := fill_sendWeight hs hw
    by_cases haligned : joins bucketSize s.fill w = true → s.fill.offset % w.dtype.itemsize = 0
    · obtain ⟨hs', hgood, hbad⟩ := ih hs₁ (yields_sendWeight hs hyields haligned hw) h
      rw [hfill, append_assoc, singleton_append] at hgood
      rw [hfill] at hbad
      exact ⟨hs', fun hall => hgood hall.2, fun hno => hbad fun hall => hno ⟨haligned, hall⟩⟩
    · rw [Classical.not_imp] at haligned
      have hdoomed := doomed_of_misaligned hs hyields haligned.1 haligned.2 hw
      obtain ⟨hs', hdoomed'⟩ := doomed_run weights hs₁ hdoomed h
      exact ⟨hs', fun hall => absurd (hall.1 haligned.1) haligned.2, fun _ => hdoomed'⟩

variable {engine : Engine} {weights : List Weight} {result : SendResult}

section

variable (h : sendWeights engine weights = .ok result)
include h

theorem sendWeights_ok :
    ∃ s metaBuf, weights.foldlM (sendWeight engine.bucketSize engine.bucketSize_pos)
        engine.initial = .ok s ∧ writeMeta s.bucketMeta true = .ok metaBuf ∧
      result.sent = s.sent ++ [⟨metaBuf, s.buf⟩] := by
  obtain ⟨s, hrun, h⟩ := bind_eq_ok.mp h
  obtain ⟨s₁, hflush, h⟩ := bind_eq_ok.mp h
  obtain ⟨metaBuf, hmeta, hs₁⟩ := bind_eq_ok.mp hflush
  refine ⟨s, metaBuf, hrun, hmeta, ?_⟩
  rw [← Except.ok.inj h, ← Except.ok.inj hs₁]
  rfl

theorem receiveWeights_of_aligned
    (haligned : Aligned engine.bucketSize .empty weights) (uninit : Nat → UInt8)
    (rest : List Bucket) :
    receiveWeights uninit (result.sent ++ rest) = .ok (weights.map Weight.tensor, rest) := by
  obtain ⟨s, metaBuf, hrun, hmeta, hsent⟩ := sendWeights_ok h
  obtain ⟨hs, hgood, -⟩ := yields_or_doomed_run uninit weights
    (stateOK_initial engine) (yields_initial engine) hrun
  obtain ⟨yielded, more, parts, hreach, hread, hdone⟩ := hgood haligned
  rw [nil_append] at hdone
  rw [receiveWeights, hsent, append_assoc, hreach, singleton_append,
    receiveLoop_last hmeta, hread s.buf (holds_buf hs), bind_ok]
  simp only [AList.empty_entries, if_true, bind_ok, hdone]

theorem receiveWeights_of_misaligned
    (hmisaligned : ¬Aligned engine.bucketSize .empty weights) (uninit : Nat → UInt8)
    (rest : List Bucket) : ∃ err, receiveWeights uninit (result.sent ++ rest) = .error err := by
  obtain ⟨s, metaBuf, hrun, hmeta, hsent⟩ := sendWeights_ok h
  obtain ⟨hs, -, hbad⟩ := yields_or_doomed_run uninit weights
    (stateOK_initial engine) (yields_initial engine) hrun
  rw [receiveWeights, hsent, append_assoc]
  rcases hbad hmisaligned with hraises | ⟨yielded, parts, hreach, hread⟩
  · exact hraises _
  · obtain ⟨err, herr⟩ := hread s.buf (holds_buf hs)
    refine ⟨err, ?_⟩
    rw [hreach, singleton_append, receiveLoop_last hmeta, herr, bind_error, bind_error]

end

/-- The flushed buckets give the receiver exactly the weights, and it stops behind them, if and
only if every weight that joins a bucket is aligned. -/
theorem receiveWeights_sent_iff {engine : Engine} {weights : List Weight} {result : SendResult}
    (h : sendWeights engine weights = .ok result) :
    (∀ uninit rest, receiveWeights uninit (result.sent ++ rest) =
        .ok (weights.map Weight.tensor, rest)) ↔ Aligned engine.bucketSize .empty weights := by
  refine ⟨fun hexact => ?_, fun haligned uninit rest =>
    receiveWeights_of_aligned h haligned uninit rest⟩
  by_contra hmisaligned
  obtain ⟨err, herr⟩ := receiveWeights_of_misaligned h hmisaligned (fun _ => 0) []
  rw [hexact] at herr
  exact absurd herr (by simp)

end Transfers

/-- One byte and a two-byte element behind it. -/
def misalignedWeights : List Weight :=
  [⟨"a", [1], .uint8, [1], rfl⟩, ⟨"b", [1], .bfloat16, [2, 3], rfl⟩]

/-- An engine with buckets of eight bytes. -/
def smallEngine : Engine :=
  ⟨8, fun _ => List.replicate 8 0, by decide, fun _ => rfl⟩

theorem sendWeights_misaligned_ok :
    ∃ result, sendWeights smallEngine misalignedWeights = .ok result := by
  have hfits : ∀ w ∈ misalignedWeights, SingleFits smallEngine.bucketSize w := by
    intro w hw
    simp only [misalignedWeights, mem_cons, not_mem_nil, or_false] at hw
    rcases hw with rfl | rfl
    · exact ⟨fun _ => by decide +kernel, fun hbig => absurd hbig (by decide)⟩
    · exact ⟨fun _ => by decide +kernel, fun hbig => absurd hbig (by decide)⟩
  have hoff : OffBoundary smallEngine.bucketSize .empty misalignedWeights := by
    refine ⟨fun hne => absurd rfl hne, fun hbig => absurd hbig (by decide), ?_,
      fun hbig => absurd hbig (by decide), trivial⟩
    exact fun _ hjoins => absurd hjoins (by decide +kernel)
  rcases sendWeights_outcome hfits with ⟨-, hok⟩ | ⟨hon, -⟩
  · exact hok
  · exact absurd hoff hon

theorem receiveWeights_sent_iff_misaligned :
    ∃ result, sendWeights smallEngine misalignedWeights = .ok result ∧
      ((∀ uninit rest, receiveWeights uninit (result.sent ++ rest) =
          .ok (misalignedWeights.map Weight.tensor, rest)) ↔
        Aligned smallEngine.bucketSize .empty misalignedWeights) := by
  obtain ⟨result, h⟩ := sendWeights_misaligned_ok
  exact ⟨result, h, receiveWeights_sent_iff h⟩

/-- The sender completes, and the receiver raises instead of yielding the weights. -/
theorem receiveWeights_misaligned_raises :
    ∃ result, sendWeights smallEngine misalignedWeights = .ok result ∧
      ∀ uninit, ∃ err, receiveWeights uninit result.sent = .error err := by
  obtain ⟨result, h⟩ := sendWeights_misaligned_ok
  have hmisaligned : ¬Aligned smallEngine.bucketSize .empty misalignedWeights := by
    rintro ⟨-, hsecond, -⟩
    exact absurd (hsecond (by decide +kernel)) (by decide +kernel)
  refine ⟨result, h, fun uninit => ?_⟩
  have := receiveWeights_of_misaligned h hmisaligned uninit []
  rwa [append_nil] at this

end ArcticPlatform.WeightSync
