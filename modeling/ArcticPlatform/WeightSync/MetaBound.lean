import ArcticPlatform.WeightSync.Packing

/-!
# Weight sync: the metadata of a bucket fits its buffer

The admission check measures the metadata of a bucket as if it were the last one.
A bucket that is flushed before the end carries the longer flag, so it needs one
byte more than was measured.

Main results:

- Theorem `sendWeight_outcome`: a round either succeeds or raises from the
  metadata buffer, and it raises exactly at the boundary.
- Theorem `sendWeights_never_raises_iff`: if every single weight fits, the sender
  never raises from the metadata buffer if and only if no bucket that is flushed
  before the end lands on the boundary.
-/

namespace ArcticPlatform.WeightSync

open PyJson Slices Results List

/-! ## Sizes of metadata -/

/-- Serialized size of an entry. -/
def entryNbytes (e : Entry) : Nat := (encodeUtf8 (dumps .spaced e.toJson)).length

theorem bucketMetaNbytes_cons (e : Entry) (rest : List Entry) :
    bucketMetaNbytes (e :: rest) true =
      32 + entryNbytes e + (rest.map fun e => 2 + entryNbytes e).sum := by
  have hmore : ∀ rest : List Entry,
      (encodeUtf8 (dumpsMoreItems .spaced (rest.map Entry.toJson))).length =
        (rest.map fun e => 2 + entryNbytes e).sum := by
    intro rest
    induction rest with
    | nil => rfl
    | cons e rest ih =>
      have hsep : (encodeUtf8 Separators.spaced.item.toList).length = 2 := by decide
      rw [map_cons, dumpsMoreItems, encodeUtf8_append, encodeUtf8_append,
        length_append, length_append, ih, hsep, map_cons, sum_cons]
      rfl
  have htext : dumps .spaced (metaJson (e :: rest) true) =
      '{' :: (dumpsString "tensors" ++ ": ".toList ++
        ('[' :: (dumps .spaced e.toJson ++ dumpsMoreItems .spaced (rest.map Entry.toJson) ++
          [']'])) ++ (", ".toList ++ dumpsString "is_last" ++ ": ".toList ++
            dumps .spaced (.bool true) ++ [])) ++ ['}'] := rfl
  have hfixed : (String.utf8EncodeChar '{').length + (encodeUtf8 (dumpsString "tensors")).length +
      (encodeUtf8 ": ".toList).length + (String.utf8EncodeChar '[').length +
      (encodeUtf8 [']']).length + (encodeUtf8 ", ".toList).length +
      (encodeUtf8 (dumpsString "is_last")).length + (encodeUtf8 ": ".toList).length +
      (encodeUtf8 (dumps .spaced (.bool true))).length + (encodeUtf8 []).length +
      (encodeUtf8 ['}']).length = 32 := by decide
  simp only [bucketMetaNbytes, metaBytes, htext, encodeUtf8_append, encodeUtf8_cons,
    length_append, hmore] at hfixed ⊢
  rw [entryNbytes]
  omega

theorem bucketMetaNbytes_singleton_le (entries : List Entry) (e : Entry) :
    bucketMetaNbytes [e] true ≤ bucketMetaNbytes (entries ++ [e]) true := by
  cases entries with
  | nil => exact le_rfl
  | cons first rest =>
    rw [cons_append, bucketMetaNbytes_cons, bucketMetaNbytes_cons, map_append, sum_append]
    simp only [map_nil, sum_nil, map_cons, sum_cons]
    omega

theorem bucketMetaNbytes_nil : bucketMetaNbytes [] true ≤ metaPayloadLimit := by decide

theorem writeMeta_false_iff {entries : List Entry}
    (hle : bucketMetaNbytes entries true ≤ metaPayloadLimit) :
    (∃ metaBuf, writeMeta entries false = .ok metaBuf) ↔
      bucketMetaNbytes entries true ≠ metaPayloadLimit := by
  rw [writeMeta_ok_iff, bucketMetaNbytes_false]
  omega

/-! ## The condition on the weights -/

/-- The metadata of a single weight, or of each of its chunks, fits by itself. -/
def SingleFits (bucketSize : Nat) (w : Weight) : Prop :=
  (w.nbytes ≤ bucketSize → bucketMetaNbytes [w.entry 0] true ≤ metaPayloadLimit) ∧
    (bucketSize < w.nbytes → ∀ k, k * bucketSize < w.nbytes →
      bucketMetaNbytes [w.chunkEntry (k * bucketSize)
        (min bucketSize (w.nbytes - k * bucketSize))] true ≤ metaPayloadLimit)

/-- The bucket in front of a weight that does not join it is off the boundary. -/
def FlushFits (bucketSize : Nat) (f : Fill) (w : Weight) : Prop :=
  f.entries ≠ [] → joins bucketSize f w = false → bucketMetaNbytes f.entries true ≠ metaPayloadLimit

/-- All chunks of an oversized weight but the last are off the boundary. -/
def ChunksFit (bucketSize : Nat) (w : Weight) : Prop :=
  bucketSize < w.nbytes → ∀ k, (k + 1) * bucketSize < w.nbytes →
    bucketMetaNbytes [w.chunkEntry (k * bucketSize) bucketSize] true ≠ metaPayloadLimit

/-- No bucket that is flushed before the end lands on the boundary. -/
def OffBoundary (bucketSize : Nat) : Fill → List Weight → Prop
  | _, [] => True
  | f, w :: rest => FlushFits bucketSize f w ∧ ChunksFit bucketSize w ∧
      OffBoundary bucketSize (f.add bucketSize w) rest

/-- The bucket passed the admission check. -/
def Admitted (f : Fill) : Prop :=
  bucketMetaNbytes f.entries true ≤ metaPayloadLimit

section Outcome

variable {bucketSize : Nat} {w : Weight} {s : SendState}

/-! ## One round -/

theorem flushIf_outcome (flush : Bool) (hadm : Admitted s.fill) :
    (flush = true → bucketMetaNbytes s.bucketMeta true ≠ metaPayloadLimit) ∧
        (∃ s₁, flushIf flush s = .ok s₁) ∨
      (flush = true ∧ bucketMetaNbytes s.bucketMeta true = metaPayloadLimit) ∧
        ∃ n, flushIf flush s = .error (.metadata n) := by
  cases flush with
  | false => exact .inl ⟨fun h => absurd h (by decide), s, rfl⟩
  | true =>
    by_cases hboundary : bucketMetaNbytes s.bucketMeta true = metaPayloadLimit
    · refine .inr ⟨⟨rfl, hboundary⟩, ?_⟩
      cases hwrite : writeMeta s.bucketMeta false with
      | ok metaBuf => exact absurd hboundary ((writeMeta_false_iff hadm).mp ⟨metaBuf, hwrite⟩)
      | error err =>
        obtain rfl := writeMeta_error hwrite
        refine ⟨bucketMetaNbytes s.bucketMeta false, ?_⟩
        simp only [flushIf, if_true, nextBucket, flushBucketSend, hwrite, bind_error]
    · obtain ⟨metaBuf, hwrite⟩ : ∃ metaBuf, writeMeta s.bucketMeta false = .ok metaBuf :=
        (writeMeta_false_iff hadm).mpr hboundary
      refine .inl ⟨fun _ => hboundary, ?_⟩
      simp only [flushIf, if_true, nextBucket, flushBucketSend, hwrite, bind_ok]
      exact ⟨_, rfl⟩

theorem checkSingle_ok {e : Entry} (h : bucketMetaNbytes [e] true ≤ metaPayloadLimit) :
    checkSingle e = .ok () := by
  rw [checkSingle, if_neg (by omega)]

section

variable (hpos : 1 ≤ bucketSize)
include hpos

/-- The chunk loop from chunk `k` on. -/
theorem sendChunks_outcome (hs : StateOK bucketSize s) (hbig : bucketSize < w.nbytes)
    (hfits : SingleFits bucketSize w) {k : Nat} (hk : k * bucketSize < w.nbytes) :
    (∀ m, k ≤ m → (m + 1) * bucketSize < w.nbytes →
        bucketMetaNbytes [w.chunkEntry (m * bucketSize) bucketSize] true ≠ metaPayloadLimit) ∧
        (∃ s', sendChunks bucketSize hpos w s (k * bucketSize) = .ok s') ∨
      (∃ m, (m + 1) * bucketSize < w.nbytes ∧
        bucketMetaNbytes [w.chunkEntry (m * bucketSize) bucketSize] true = metaPayloadLimit) ∧
        ∃ n, sendChunks bucketSize hpos w s (k * bucketSize) = .error (.metadata n) := by
  induction hrest : w.nbytes - k * bucketSize using Nat.strong_induction_on generalizing k s with
  | _ rest ih =>
    have hcheck := checkSingle_ok (hfits.2 hbig k hk)
    have hsucc : k * bucketSize + bucketSize = (k + 1) * bucketSize := by
      rw [add_mul, one_mul]
    rw [sendChunks, if_pos hk, packChunk_eq hs hk, hcheck]
    simp only [bind_ok]
    rcases lt_or_ge (k * bucketSize + bucketSize) w.nbytes with hlt | hge
    · have hmin : min bucketSize (w.nbytes - k * bucketSize) = bucketSize := by omega
      have hs₁ : StateOK bucketSize (s.chunked w (k * bucketSize) bucketSize) :=
        stateOK_chunked hs le_rfl (by omega)
      have hadm : Admitted (s.chunked w (k * bucketSize) bucketSize).fill := by
        have := hfits.2 hbig k hk
        rwa [hmin] at this
      rw [hmin]
      rcases flushIf_outcome (decide (k * bucketSize + bucketSize < w.nbytes)) hadm with
        ⟨hfree, s₂, hflush⟩ | ⟨⟨-, hboundary⟩, n, hflush⟩
      · have hs₂ : StateOK bucketSize s₂ := by
          rcases flushIf_ok hflush with ⟨-, rfl⟩ | ⟨-, metaBuf, -, rfl⟩
          · exact hs₁
          · exact stateOK_flushed hs₁ metaBuf
        rw [hflush, bind_ok, hsucc]
        rcases ih (w.nbytes - (k + 1) * bucketSize) (by omega) hs₂ (by omega) rfl with
          ⟨hall, hok⟩ | hbad
        · refine .inl ⟨fun m hm hmlt => ?_, hok⟩
          rcases Nat.eq_or_lt_of_le hm with rfl | hlt'
          · exact hfree (by simpa using hlt)
          · exact hall m hlt' hmlt
        · exact .inr hbad
      · refine .inr ⟨⟨k, by omega, hboundary⟩, n, ?_⟩
        rw [hflush, bind_error]
    · have hmin : k * bucketSize + min bucketSize (w.nbytes - k * bucketSize) = w.nbytes := by
        omega
      have hflag : decide (k * bucketSize + min bucketSize (w.nbytes - k * bucketSize) <
          w.nbytes) = false := by
        rw [hmin]
        simp
      rw [hflag, flushIf, if_neg (by decide), bind_ok, hmin, sendChunks_done le_rfl]
      refine .inl ⟨fun m hm hmlt => ?_, _, rfl⟩
      have : (k + 1) * bucketSize ≤ (m + 1) * bucketSize := Nat.mul_le_mul_right _ (by omega)
      omega

/-- One round: it succeeds, or it raises from the metadata buffer because a bucket that it
flushes lands on the boundary. -/
theorem sendWeight_outcome (hs : StateOK bucketSize s) (hadm : Admitted s.fill)
    (hfits : SingleFits bucketSize w) :
    (FlushFits bucketSize s.fill w ∧ ChunksFit bucketSize w) ∧
        (∃ s', sendWeight bucketSize hpos s w = .ok s') ∨
      ¬(FlushFits bucketSize s.fill w ∧ ChunksFit bucketSize w) ∧
        ∃ n, sendWeight bucketSize hpos s w = .error (.metadata n) := by
  by_cases hbig : bucketSize < w.nbytes
  · have hjoins : joins bucketSize s.fill w = false := by
      simp only [joins, Bool.and_eq_false_iff, decide_eq_false_iff_not]
      exact .inl (by omega)
    rw [sendWeight, if_pos hbig]
    rcases flushIf_outcome (!s.bucketMeta.isEmpty) hadm with
      ⟨hfree, s₁, hflush⟩ | ⟨⟨hflag, hboundary⟩, n, hflush⟩
    · have hflushFits : FlushFits bucketSize s.fill w := by
        intro hne _
        exact hfree (by simpa [SendState.fill] using hne)
      have hs₁ : StateOK bucketSize s₁ := by
        rcases flushIf_ok hflush with ⟨-, rfl⟩ | ⟨-, metaBuf, -, rfl⟩
        · exact hs
        · exact stateOK_flushed hs metaBuf
      rw [hflush, bind_ok]
      rcases sendChunks_outcome hpos (k := 0) hs₁ hbig hfits (by omega) with
        ⟨hall, s₂, hchunks⟩ | ⟨⟨m, hm, hboundary⟩, n, hchunks⟩
      · rw [zero_mul] at hchunks
        rw [hchunks, bind_ok]
        exact .inl ⟨⟨hflushFits, fun _ k hk => hall k zero_le hk⟩, _, rfl⟩
      · rw [zero_mul] at hchunks
        rw [hchunks, bind_error]
        exact .inr ⟨fun h => h.2 hbig m hm hboundary, n, rfl⟩
    · rw [hflush, bind_error]
      refine .inr ⟨fun h => h.1 ?_ hjoins hboundary, n, rfl⟩
      simpa [SendState.fill] using hflag
  · have hsmall : w.nbytes ≤ bucketSize := le_of_not_gt hbig
    have hchunksFit : ChunksFit bucketSize w := fun h => absurd h hbig
    rw [sendWeight, if_neg hbig]
    rcases flushIf_outcome (overflows bucketSize s.bucketMeta s.offset w) hadm with
      ⟨hfree, s₁, hflush⟩ | ⟨⟨hflag, hboundary⟩, n, hflush⟩
    · have hflushFits : FlushFits bucketSize s.fill w := by
        intro _ hjoins
        refine hfree ?_
        simp only [joins, Bool.and_eq_false_iff, decide_eq_false_iff_not,
          Bool.not_eq_false'] at hjoins
        exact hjoins.resolve_left (by omega)
      have hfit : StateOK bucketSize s₁ ∧ s₁.offset + w.nbytes ≤ bucketSize ∧
          bucketMetaNbytes [w.entry s₁.offset] true ≤ metaPayloadLimit := by
        rcases flushIf_ok hflush with ⟨hover, hs₁⟩ | ⟨-, metaBuf, -, rfl⟩
        · rw [hs₁]
          by_cases hnil : s.bucketMeta = []
          · rw [hs.offset_nil hnil, zero_add]
            exact ⟨hs, hsmall, hfits.1 hsmall⟩
          · simp only [overflows, Bool.and_eq_false_iff, Bool.or_eq_false_iff,
              decide_eq_false_iff_not, Bool.not_eq_false', List.isEmpty_iff] at hover
            obtain ⟨hdata, hmeta⟩ := hover.resolve_left hnil
            have := bucketMetaNbytes_singleton_le s.bucketMeta (w.entry s.offset)
            exact ⟨hs, by omega, by omega⟩
        · refine ⟨stateOK_flushed hs metaBuf, ?_, hfits.1 hsmall⟩
          rw [SendState.flushed]
          simpa using hsmall
      obtain ⟨hs₁, hle, hsingle⟩ := hfit
      have hcopy : copyBytes s₁ s₁.offset (s₁.offset + w.nbytes) w.bytes =
          .ok (s₁.copied s₁.offset w.bytes) := copyBytes_eq rfl
        (show s₁.offset + w.nbytes ≤ s₁.buf.length by
          rw [SendState.buf, hs₁.length_dataBufs]
          exact hle)
      simp only [hflush, bind_ok, checkSingle_ok hsingle, hcopy]
      exact .inl ⟨⟨hflushFits, hchunksFit⟩, _, rfl⟩
    · rw [hflush, bind_error]
      refine .inr ⟨fun h => h.1 ?_ ?_ hboundary, n, rfl⟩
      · simp only [overflows, Bool.and_eq_true] at hflag
        simpa [SendState.fill] using hflag.1
      · simp [joins, SendState.fill, hflag]

theorem admitted_add {f : Fill} (hfits : SingleFits bucketSize w)
    (hoffset : f.entries = [] → f.offset = 0) :
    Admitted (f.add bucketSize w) := by
  unfold Fill.add
  split_ifs with hbig hover
  · have hlow := Nat.div_mul_le_self (w.nbytes - 1) bucketSize
    have hhigh := Nat.lt_div_mul_add (a := w.nbytes - 1) (show 0 < bucketSize by omega)
    have hchunk := hfits.2 hbig ((w.nbytes - 1) / bucketSize) (by omega)
    rw [min_eq_right (by omega)] at hchunk
    exact hchunk
  · exact hfits.1 (le_of_not_gt hbig)
  · by_cases hnil : f.entries = []
    · rw [Admitted, hnil, nil_append, hoffset hnil]
      exact hfits.1 (le_of_not_gt hbig)
    · simp only [overflows, Bool.and_eq_true, Bool.or_eq_true, decide_eq_true_eq,
        Bool.not_eq_true', isEmpty_eq_false_iff, not_and, not_or, ne_eq] at hover
      have := (hover hnil).2
      exact le_of_not_gt this

theorem sendRun_outcome (weights : List Weight) (hs : StateOK bucketSize s)
    (hadm : Admitted s.fill) (hfits : ∀ w ∈ weights, SingleFits bucketSize w) :
    OffBoundary bucketSize s.fill weights ∧
        (∃ s', weights.foldlM (sendWeight bucketSize hpos) s = .ok s' ∧ Admitted s'.fill) ∨
      ¬OffBoundary bucketSize s.fill weights ∧
        ∃ n, weights.foldlM (sendWeight bucketSize hpos) s = .error (.metadata n) := by
  induction weights generalizing s with
  | nil => exact .inl ⟨trivial, s, rfl, hadm⟩
  | cons w weights ih =>
    have hw := hfits w mem_cons_self
    rw [foldlM_cons]
    rcases sendWeight_outcome hpos hs hadm hw with ⟨hfree, s₁, hok⟩ | ⟨hbad, n, herr⟩
    · obtain ⟨hs₁, hfill⟩ := fill_sendWeight hs hok
      have hadm₁ : Admitted s₁.fill := by
        rw [hfill]
        exact admitted_add hpos hw hs.offset_nil
      rw [hok, bind_ok]
      rcases ih hs₁ hadm₁ (fun v hv => hfits v (mem_cons_of_mem w hv)) with
        ⟨hoff, hrest⟩ | ⟨hon, hrest⟩
      · rw [hfill] at hoff
        exact .inl ⟨⟨hfree.1, hfree.2, hoff⟩, hrest⟩
      · rw [hfill] at hon
        exact .inr ⟨fun h => hon h.2.2, hrest⟩
    · rw [herr, bind_error]
      exact .inr ⟨fun h => hbad ⟨h.1, h.2.1⟩, n, rfl⟩

end

end Outcome

/-! ## Whole transfers -/

/-- The sender completes, or raises from the metadata buffer at a bucket on the boundary. -/
theorem sendWeights_outcome {engine : Engine} {weights : List Weight}
    (hfits : ∀ w ∈ weights, SingleFits engine.bucketSize w) :
    OffBoundary engine.bucketSize .empty weights ∧
        (∃ result, sendWeights engine weights = .ok result) ∨
      ¬OffBoundary engine.bucketSize .empty weights ∧
        ∃ n, sendWeights engine weights = .error (.metadata n) := by
  rcases sendRun_outcome engine.bucketSize_pos weights (stateOK_initial engine)
    bucketMetaNbytes_nil hfits with ⟨hoff, s, hrun, hadm⟩ | ⟨hon, n, hrun⟩
  · obtain ⟨metaBuf, hmeta⟩ : ∃ metaBuf, writeMeta s.bucketMeta true = .ok metaBuf :=
      writeMeta_ok_iff.mpr hadm
    refine .inl ⟨hoff, ?_⟩
    simp only [sendWeights, hrun, bind_ok, flushBucketSend, hmeta]
    exact ⟨_, rfl⟩
  · refine .inr ⟨hon, n, ?_⟩
    rw [sendWeights, hrun, bind_error]

/-- If every single weight fits by itself, the sender never raises from the metadata buffer if
and only if no bucket that is flushed before the end lands on the boundary. -/
theorem sendWeights_never_raises_iff {engine : Engine} {weights : List Weight}
    (hfits : ∀ w ∈ weights, SingleFits engine.bucketSize w) :
    (∀ n, sendWeights engine weights ≠ .error (.metadata n)) ↔
      OffBoundary engine.bucketSize .empty weights := by
  rcases sendWeights_outcome hfits with ⟨hoff, result, hok⟩ | ⟨hon, n, herr⟩
  · refine ⟨fun _ => hoff, fun _ n herr => ?_⟩
    rw [hok] at herr
    exact absurd herr (by simp)
  · exact ⟨fun h => absurd herr (h n), fun h => absurd h hon⟩

/-! ## A bucket on the boundary -/

/-- A weight without elements. -/
def emptyWeight (name : String) : Weight :=
  ⟨name, [0], .uint8, [], rfl⟩

/-- An engine with buckets of one byte. -/
def byteEngine : Engine :=
  ⟨1, fun _ => [0], le_rfl, fun _ => rfl⟩

/-- A name of the given length. -/
def longName (n : Nat) : String := String.ofList (List.replicate n 'a')

variable (n : Nat)

theorem length_encode_replicate : (encodeUtf8 (List.replicate n 'a')).length = n := by
  induction n with
  | zero => rfl
  | succ n ih =>
    have hone : (String.utf8EncodeChar 'a').length = 1 := by decide
    rw [replicate_succ, encodeUtf8_cons, length_append, ih, hone]
    omega

theorem length_encode_longName : (encodeUtf8 (dumpsString (longName n))).length = n + 2 := by
  have hplain : (longName n).toList.flatMap escapeChar = List.replicate n 'a' := by
    rw [longName, String.toList_ofList, flatMap_congr (g := fun c => [c]) fun c hc => ?_,
      flatMap_singleton']
    rw [eq_of_mem_replicate hc]
    decide
  have hquote : (String.utf8EncodeChar '"').length = 1 ∧ (encodeUtf8 ['"']).length = 1 := by
    decide
  rw [dumpsString, encodeUtf8_cons, encodeUtf8_append, hplain, length_append,
    length_append, length_encode_replicate, hquote.1, hquote.2]
  omega

theorem entryNbytes_longName : entryNbytes ((emptyWeight (longName n)).entry 0) = n + 76 := by
  have htext : dumps .spaced ((emptyWeight (longName n)).entry 0).toJson =
      '{' :: (dumpsString "name" ++ ": ".toList ++ dumpsString (longName n) ++
        dumpsMoreMembers .spaced [("shape", .arr [.int 0]), ("dtype", .str "torch.uint8"),
          ("offset", .int 0), ("nbytes", .int 0)]) ++ ['}'] := rfl
  have hfixed : (String.utf8EncodeChar '{').length + (encodeUtf8 (dumpsString "name")).length +
      (encodeUtf8 ": ".toList).length +
      (encodeUtf8 (dumpsMoreMembers .spaced [("shape", .arr [.int 0]),
        ("dtype", .str "torch.uint8"), ("offset", .int 0), ("nbytes", .int 0)])).length +
      (encodeUtf8 ['}']).length = 74 := by decide
  rw [entryNbytes, htext]
  simp only [encodeUtf8_append, encodeUtf8_cons, length_append, length_encode_longName] at hfixed ⊢
  omega

theorem bucketMetaNbytes_longName :
    bucketMetaNbytes [(emptyWeight (longName n)).entry 0] true = n + 108 := by
  rw [bucketMetaNbytes_cons, entryNbytes_longName, map_nil, sum_nil]
  omega

theorem singleFits_emptyWeight {name : String}
    (h : bucketMetaNbytes [(emptyWeight name).entry 0] true ≤ metaPayloadLimit) :
    SingleFits 1 (emptyWeight name) :=
  ⟨fun _ => h, fun hbig => absurd hbig (by simp [emptyWeight, Weight.nbytes])⟩

/-- Two weights without bytes whose metadata fills the buffer exactly are flushed by a third. -/
theorem not_offBoundary {long : Weight} (hempty : long.nbytes = 0)
    (hpair : bucketMetaNbytes [long.entry 0, long.entry 0] true = metaPayloadLimit) :
    ¬OffBoundary 1 .empty [long, long, emptyWeight "c"] := by
  have hfirst : Fill.empty.add 1 long = ⟨[long.entry 0], 0⟩ := by
    rw [Fill.add, if_neg (by omega), if_neg (by simp [Fill.empty, overflows])]
    simp [Fill.empty, hempty]
  have hsecond : (⟨[long.entry 0], 0⟩ : Fill).add 1 long = ⟨[long.entry 0, long.entry 0], 0⟩ := by
    have hjoin : overflows 1 [long.entry 0] 0 long = false := by
      simp [overflows, hpair, hempty]
    rw [Fill.add, if_neg (by omega), if_neg (by simp [hjoin])]
    simp [hempty]
  have hthird : joins 1 ⟨[long.entry 0, long.entry 0], 0⟩ (emptyWeight "c") = false := by
    have hmore : metaPayloadLimit < bucketMetaNbytes
        ([long.entry 0, long.entry 0] ++ [(emptyWeight "c").entry 0]) true := by
      rw [← hpair, cons_append, bucketMetaNbytes_cons, bucketMetaNbytes_cons]
      simp only [cons_append, nil_append, map_cons, map_nil, sum_cons, sum_nil]
      omega
    simp only [joins, overflows, hmore, decide_true, Bool.or_true, Bool.and_true]
    rfl
  rintro ⟨-, -, -, -, hflush, -⟩
  rw [hfirst, hsecond] at hflush
  exact hflush (by simp) hthird hpair

/-- Two weights that fill the metadata exactly, and a third one. -/
def boundaryWeights : List Weight :=
  [emptyWeight (longName 130975), emptyWeight (longName 130975), emptyWeight "c"]

theorem singleFits_boundaryWeights : ∀ w ∈ boundaryWeights, SingleFits byteEngine.bucketSize w := by
  have hlong : SingleFits 1 (emptyWeight (longName 130975)) := by
    refine singleFits_emptyWeight ?_
    rw [bucketMetaNbytes_longName]
    decide
  have hshort : SingleFits 1 (emptyWeight "c") := singleFits_emptyWeight (by decide +kernel)
  intro w hw
  simp only [boundaryWeights, mem_cons, not_mem_nil, or_false, or_self_left] at hw
  rcases hw with hw | hw
  · rw [hw]
    exact hlong
  · rw [hw]
    exact hshort

theorem sendWeights_never_raises_iff_boundary :
    (∀ w ∈ boundaryWeights, SingleFits byteEngine.bucketSize w) ∧
      ((∀ n, sendWeights byteEngine boundaryWeights ≠ .error (.metadata n)) ↔
        OffBoundary byteEngine.bucketSize .empty boundaryWeights) :=
  ⟨singleFits_boundaryWeights, sendWeights_never_raises_iff singleFits_boundaryWeights⟩

/-- Each weight fits by itself with either flag, and the sender raises. -/
theorem sendWeights_raises_on_boundary :
    (∀ w ∈ boundaryWeights, ∀ isLast, bucketMetaNbytes [w.entry 0] isLast ≤ metaPayloadLimit) ∧
      ∃ n, sendWeights byteEngine boundaryWeights = .error (.metadata n) := by
  have hlimit : metaPayloadLimit = 262136 := by decide
  constructor
  · intro w hw isLast
    have hle : bucketMetaNbytes [w.entry 0] true < metaPayloadLimit := by
      simp only [boundaryWeights, mem_cons, not_mem_nil, or_false, or_self_left] at hw
      rcases hw with hw | hw
      · rw [hw, bucketMetaNbytes_longName, hlimit]
        omega
      · rw [hw]
        decide +kernel
    cases isLast with
    | true => exact hle.le
    | false =>
      rw [bucketMetaNbytes_false]
      omega
  · have hpair : bucketMetaNbytes [(emptyWeight (longName 130975)).entry 0,
        (emptyWeight (longName 130975)).entry 0] true = metaPayloadLimit := by
      rw [bucketMetaNbytes_cons, map_singleton, sum_singleton, entryNbytes_longName, hlimit]
    rcases sendWeights_outcome singleFits_boundaryWeights with ⟨hoff, -⟩ | ⟨-, herr⟩
    · exact absurd hoff (not_offBoundary rfl hpair)
    · exact herr

end ArcticPlatform.WeightSync
