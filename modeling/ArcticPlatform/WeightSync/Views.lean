import ArcticPlatform.WeightSync.Transfer

/-!
# Weight sync: the typed views of the receiver

The receiver reinterprets the bytes of a whole weight where they lie in the bucket, and
copies the bytes of a chunk.  The views that it makes of the buckets of a transfer are
those of the weights that fit a bucket, each at the offset where the packing put it.

Main results:

- Theorem `views_run`: the views of the buckets that a run has filled.
- Theorem `views_aligned_iff`: they are aligned if and only if every weight that joins
  a bucket is.
-/

namespace ArcticPlatform.WeightSync

open PyJson Slices Results List

/-! ## Views of a bucket -/

deriving instance DecidableEq for Received

/-- The receiver reinterprets the bytes of the entry: it has the whole tensor. -/
def Received.IsWhole (tm : Received) : Prop :=
  tm.tensorOffset = 0 ∧ tm.tensorNbytes = tm.chunkNbytes

instance : DecidablePred Received.IsWhole :=
  fun tm => inferInstanceAs (Decidable (tm.tensorOffset = 0 ∧ tm.tensorNbytes = tm.chunkNbytes))

/-- The offset is a multiple of the element size, and the bytes are those of the elements. -/
def Received.IsAligned (tm : Received) : Prop :=
  tm.offset % tm.dtype.itemsize = 0 ∧ tm.chunkNbytes = tm.shape.prod * tm.dtype.itemsize

instance : DecidablePred Received.IsAligned :=
  fun tm => inferInstanceAs (Decidable (tm.offset % tm.dtype.itemsize = 0 ∧
    tm.chunkNbytes = tm.shape.prod * tm.dtype.itemsize))

/-- The entries of which the receiver makes typed views. -/
def typedViews (tensors : List Json) : List Received :=
  (tensors.filterMap readEntry).filter fun tm => tm.IsWhole

/-- The typed views of a bucket. -/
def Bucket.views (bucket : Bucket) : List Received :=
  (((parseMeta bucket.metaBuf).bind readMeta).map fun metadata => typedViews metadata.1).getD []

/-! ## Views of the entries that the sender writes -/

/-- The view of a weight at an offset. -/
def Weight.view (w : Weight) (offset : Nat) : Received :=
  ⟨w.name, w.shape, w.dtype, offset, w.nbytes, 0, w.nbytes⟩

/-- The views of the entries of a bucket. -/
def entryViews (entries : List Entry) : List Received := typedViews (entries.map Entry.toJson)

theorem entryViews_append (a b : List Entry) : entryViews (a ++ b) = entryViews a ++ entryViews b := by
  simp [entryViews, typedViews]

theorem entryViews_entry (w : Weight) (offset : Nat) :
    entryViews [w.entry offset] = [w.view offset] := by
  have hread : readEntry (w.entry offset).toJson = some (w.view offset) :=
    readEntry_toJson (e := w.entry offset) (d := w.dtype) rfl
  simp [entryViews, typedViews, hread, Received.IsWhole, Weight.view]

theorem entryViews_chunkEntry {w : Weight} {t c : Nat} (h : c < w.nbytes) :
    entryViews [w.chunkEntry t c] = [] := by
  have hread : readEntry (w.chunkEntry t c).toJson =
      some ⟨w.name, w.shape, w.dtype, 0, c, t, w.nbytes⟩ :=
    readEntry_toJson (e := w.chunkEntry t c) (d := w.dtype) rfl
  have hpart : ¬(t = 0 ∧ w.nbytes = c) := by omega
  simp [entryViews, typedViews, hread, Received.IsWhole, hpart]

theorem views_writeMeta {entries : List Entry} {isLast : Bool} {metaBuf : List UInt8}
    (hmeta : writeMeta entries isLast = .ok metaBuf) (data : List UInt8) :
    (Bucket.mk metaBuf data).views = entryViews entries := by
  rw [Bucket.views, parseMeta_writeMeta hmeta, Option.bind_some, readMeta_metaJson]
  rfl

/-! ## Views of a run -/

/-- The views of the buckets that have been sent and of the current one. -/
def SendState.views (s : SendState) : List Received :=
  s.sent.flatMap Bucket.views ++ entryViews s.bucketMeta

section Run

variable {bucketSize : Nat} {hpos : 1 ≤ bucketSize} {w : Weight} {s s' : SendState}

theorem views_flushed {metaBuf : List UInt8} (hmeta : writeMeta s.bucketMeta false = .ok metaBuf) :
    (s.flushed metaBuf).views = s.views := by
  simp only [SendState.views, SendState.flushed, flatMap_append, flatMap_singleton,
    views_writeMeta hmeta, entryViews, typedViews, map_nil, filterMap_nil, filter_nil, append_nil]

theorem views_joined (s : SendState) (w : Weight) :
    (s.joined w).views = s.views ++ [w.view s.offset] := by
  simp only [SendState.views, SendState.joined, SendState.copied, entryViews_append,
    entryViews_entry, append_assoc]

theorem views_chunked (hnil : s.bucketMeta = []) {t c : Nat} (hc : c < w.nbytes) :
    (s.chunked w t c).views = s.views := by
  have hno : entryViews s.bucketMeta = [] := by rw [hnil]; rfl
  simp only [SendState.views, SendState.chunked, SendState.copied, entryViews_chunkEntry hc, hno]

theorem views_sendChunks (hs : StateOK bucketSize s) (hbig : bucketSize < w.nbytes) {t : Nat}
    (ht : t < w.nbytes) (hnil : s.bucketMeta = [])
    (h : sendChunks bucketSize hpos w s t = .ok s') : s'.views = s.views := by
  induction hrest : w.nbytes - t using Nat.strong_induction_on generalizing t s with
  | _ rest ih =>
    rcases sendChunks_ok hs ht h with ⟨hge, rfl⟩ | ⟨hmore, metaBuf, hmeta, hnext⟩
    · exact views_chunked hnil (by omega)
    · have hs₁ : StateOK bucketSize (s.chunked w t bucketSize) :=
        stateOK_chunked hs le_rfl (by omega)
      rw [ih (w.nbytes - (t + bucketSize)) (by omega) (stateOK_flushed hs₁ metaBuf) hmore rfl
        hnext rfl, views_flushed (s := s.chunked w t bucketSize) hmeta, views_chunked hnil hbig]

/-- The view of a weight that fits a bucket. -/
def viewOf (bucketSize : Nat) (f : Fill) (w : Weight) : List Received :=
  if bucketSize < w.nbytes then []
  else [w.view (if joins bucketSize f w then f.offset else 0)]

/-- The views of weights that are packed behind a bucket's content. -/
def viewsOf (bucketSize : Nat) : Fill → List Weight → List Received
  | _, [] => []
  | f, w :: rest => viewOf bucketSize f w ++ viewsOf bucketSize (f.add bucketSize w) rest

theorem views_sendWeight (hs : StateOK bucketSize s) (h : sendWeight bucketSize hpos s w = .ok s') :
    s'.views = s.views ++ viewOf bucketSize s.fill w := by
  rcases sendWeight_ok hs h with ⟨hjoins, hle, rfl⟩ | ⟨hjoins, hsmall, metaBuf, hmeta, rfl⟩ |
    ⟨hbig, s₁, s₂, hs₁, hchunks, rfl⟩
  · rw [viewOf, if_neg (by omega), if_pos hjoins, views_joined]
    rfl
  · rw [viewOf, if_neg (by omega), if_neg (by simp [hjoins]), views_joined, views_flushed hmeta]
    rfl
  · have hsame : s₁.views = s.views ∧ s₁.bucketMeta = [] := by
      rcases hs₁ with ⟨hnil, rfl⟩ | ⟨-, metaBuf, hmeta, rfl⟩
      · exact ⟨rfl, hnil⟩
      · exact ⟨views_flushed hmeta, rfl⟩
    rw [viewOf, if_pos hbig, append_nil, ← hsame.1]
    have hzero : 0 < w.nbytes := by omega
    have hviews : s₂.views = s₁.views :=
      views_sendChunks (stateOK_beforeChunks hs hs₁) hbig hzero hsame.2 hchunks
    exact hviews

/-- The views of the buckets that a run has filled. -/
theorem views_run (weights : List Weight) (hs : StateOK bucketSize s)
    (h : weights.foldlM (sendWeight bucketSize hpos) s = .ok s') :
    s'.views = s.views ++ viewsOf bucketSize s.fill weights := by
  induction weights generalizing s with
  | nil =>
    obtain rfl := Except.ok.inj h
    exact (append_nil _).symm
  | cons w weights ih =>
    rw [foldlM_cons] at h
    obtain ⟨s₁, hw, h⟩ := bind_eq_ok.mp h
    obtain ⟨hs₁, hfill⟩ := fill_sendWeight hs hw
    rw [ih hs₁ h, views_sendWeight hs hw, viewsOf, hfill, append_assoc]

end Run

/-! ## Alignment -/

theorem isAligned_view (w : Weight) (offset : Nat) :
    (w.view offset).IsAligned ↔ offset % w.dtype.itemsize = 0 := by
  have hbytes : w.nbytes = w.shape.prod * w.dtype.itemsize := w.length_bytes
  simp [Received.IsAligned, Weight.view, hbytes]

theorem isAligned_viewOf (bucketSize : Nat) (f : Fill) (w : Weight) :
    (∀ tm ∈ viewOf bucketSize f w, tm.IsAligned) ↔
      (joins bucketSize f w = true → f.offset % w.dtype.itemsize = 0) := by
  by_cases hbig : bucketSize < w.nbytes
  · have hno : joins bucketSize f w = false := by
      simp only [joins, Bool.and_eq_false_iff, decide_eq_false_iff_not]
      exact .inl (by omega)
    simp [viewOf, hbig, hno]
  · cases hjoins : joins bucketSize f w with
    | false => simp [viewOf, hbig, hjoins, isAligned_view]
    | true => simp [viewOf, hbig, hjoins, isAligned_view]

theorem isAligned_viewsOf (bucketSize : Nat) (f : Fill) (weights : List Weight) :
    (∀ tm ∈ viewsOf bucketSize f weights, tm.IsAligned) ↔ Aligned bucketSize f weights := by
  induction weights generalizing f with
  | nil => simp [viewsOf, Aligned]
  | cons w weights ih =>
    simp only [viewsOf, Aligned, forall_mem_append, isAligned_viewOf, ih]

theorem views_sendWeights {engine : Engine} {weights : List Weight} {result : SendResult}
    (h : sendWeights engine weights = .ok result) :
    result.sent.flatMap Bucket.views = viewsOf engine.bucketSize .empty weights := by
  obtain ⟨s, metaBuf, hrun, hmeta, hsent⟩ := sendWeights_ok h
  have hviews := views_run weights (stateOK_initial engine) hrun
  rw [hsent, flatMap_append, flatMap_singleton, views_writeMeta hmeta]
  exact hviews

/-- The receiver's typed views are aligned, so that none raises, if and only if every weight
that joins a bucket starts at a multiple of its element size. -/
theorem views_aligned_iff {engine : Engine} {weights : List Weight} {result : SendResult}
    (h : sendWeights engine weights = .ok result) :
    ((∀ bucket ∈ result.sent, ∀ tm ∈ bucket.views, tm.IsAligned) ∧
        ∀ uninit rest, receiveWeights uninit (result.sent ++ rest) ≠ .error .view) ↔
      Aligned engine.bucketSize .empty weights := by
  have hviews : (∀ bucket ∈ result.sent, ∀ tm ∈ bucket.views, tm.IsAligned) ↔
      Aligned engine.bucketSize .empty weights := by
    rw [← isAligned_viewsOf, ← views_sendWeights h]
    simp only [mem_flatMap, forall_exists_index, and_imp]
    exact ⟨fun hall tm bucket hbucket htm => hall bucket hbucket tm htm,
      fun hall bucket hbucket tm htm => hall tm bucket hbucket htm⟩
  refine ⟨fun hall => hviews.mp hall.1, fun haligned => ⟨hviews.mpr haligned, ?_⟩⟩
  intro uninit rest
  rw [receiveWeights_of_aligned h haligned uninit rest]
  simp

theorem views_aligned_iff_small :
    ∃ result, sendWeights smallEngine misalignedWeights = .ok result ∧
      (((∀ bucket ∈ result.sent, ∀ tm ∈ bucket.views, tm.IsAligned) ∧
          ∀ uninit rest, receiveWeights uninit (result.sent ++ rest) ≠ .error .view) ↔
        Aligned smallEngine.bucketSize .empty misalignedWeights) := by
  obtain ⟨result, h⟩ := sendWeights_misaligned_ok
  exact ⟨result, h, views_aligned_iff h⟩

/-- The two-byte element behind one byte is viewed at the offset 1. -/
theorem view_at_odd_offset :
    ∃ result, sendWeights smallEngine misalignedWeights = .ok result ∧
      ∃ bucket ∈ result.sent, ∃ tm ∈ bucket.views, tm.dtype = .bfloat16 ∧ tm.offset = 1 ∧
        ¬tm.IsAligned ∧ ∀ uninit, ∃ err, receiveWeights uninit result.sent = .error err := by
  obtain ⟨result, h⟩ := sendWeights_misaligned_ok
  have hmisaligned : ¬Aligned smallEngine.bucketSize .empty misalignedWeights :=
    fun hall => absurd (hall.2.1 (by decide +kernel)) (by decide +kernel)
  have hmem : (⟨"b", [1], .bfloat16, 1, 2, 0, 2⟩ : Received) ∈
      result.sent.flatMap Bucket.views := by
    rw [views_sendWeights h]
    decide +kernel
  obtain ⟨bucket, hbucket, htm⟩ := mem_flatMap.mp hmem
  refine ⟨result, h, bucket, hbucket, _, htm, rfl, rfl, by decide, fun uninit => ?_⟩
  have hraises := receiveWeights_of_misaligned h hmisaligned uninit []
  rwa [append_nil] at hraises

end ArcticPlatform.WeightSync
