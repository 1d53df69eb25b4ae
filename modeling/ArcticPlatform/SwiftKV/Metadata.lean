import ArcticPlatform.Library.IndexWrites
import ArcticPlatform.Library.Slices
import ArcticPlatform.Library.StableSort

/-!
# SwiftKV: metadata of the tokens that survive

An embedding of `_fix_flash_attention_metadata`, `_fix_flashinfer_metadata` and the selection
and write-back of `forward`.  `torch.argsort` is an arbitrary function that sorts its keys.

Main results:

- Theorem `requestOf_spec`: the request of a token.
- Theorem `reordered_eq`: the requests in the order of the rebuilt metadata.
- Theorem `exists_rebuilt`: the rebuilt FlashInfer metadata, for every batch with survivors.
-/

namespace ArcticPlatform.SwiftKV

open Slices List

variable {Page Slot Row Hidden : Type}

/-! ## Tensor operations -/

/-- `torch.searchsorted(xs, v)` of a sorted tensor. -/
def searchsortedLeft (xs : List Nat) (v : Nat) : Nat := (xs.takeWhile (· < v)).length

/-- `torch.searchsorted(xs, v, right=True)` of a sorted tensor. -/
def searchsortedRight (xs : List Nat) (v : Nat) : Nat := (xs.takeWhile (· ≤ v)).length

/-- `xs[indices]`. -/
def gather {α : Type} (xs : List α) (indices : List Nat) : Option (List α) := indices.mapM (xs[·]?)

/-- The values of `torch.unique`. -/
def unique (xs : List Nat) : List Nat :=
  (range (xs.foldr (fun x n => max (x + 1) n) 0)).filter (· ∈ xs)

/-- `xs.diff()`. -/
def diff (xs : List Nat) : List Nat := (xs.zip xs.tail).map fun entry => entry.2 - entry.1

/-- What is assumed of `torch.argsort`: some permutation that sorts the keys. -/
def Sorts (argsort : List Int → List Nat) : Prop :=
  ∀ keys, (argsort keys).Perm (range keys.length) ∧
    ((argsort keys).map (keys.getD · 0)).Pairwise (· ≤ ·)

/-! ## Metadata -/

/-- `FlashAttentionMetadata`. -/
structure FlashAttentionMetadata (Slot : Type) where
  numActualTokens : Nat
  queryStartLoc : List Nat
  slotMapping : List Slot
  useCascade : Bool

/-- `FlashInferMetadata`. -/
structure FlashInferMetadata (Page Slot : Type) where
  numActualTokens : Nat
  qoIndptr : List Nat
  pagedKvIndptr : List Nat
  pagedKvIndices : List Page
  pagedKvLastPageLen : List Nat
  slotMapping : List Slot
  numDecodes : Nat
  numPrefills : Nat
  numDecodeTokens : Nat
  numPrefillTokens : Nat
  useCascade : Bool
  swiftkvInverseSortIndices : List Nat

/-- `_fix_flash_attention_metadata`. -/
def fixFlashAttentionMetadata (m : FlashAttentionMetadata Slot) (logitsIndices : List Nat) :
    Option (FlashAttentionMetadata Slot) := do
  let slotMapping ← gather m.slotMapping logitsIndices
  some { m with
    numActualTokens := logitsIndices.length
    queryStartLoc := m.queryStartLoc.map (searchsortedLeft logitsIndices)
    slotMapping
    useCascade := false }

/-- `old_to_new_req_pos`. -/
def oldToNewReqPos (size : Nat) (reorderedReqIds : List Nat) : List Int :=
  (reorderedReqIds.zip ((range reorderedReqIds.length).map Int.ofNat)).foldl
    (fun out entry => out.set entry.1 entry.2) (replicate size (-1))

/-- `_fix_flashinfer_metadata`: the rebuilt metadata and the reordered indices; `none` when it
raises. -/
def fixFlashinferMetadata (argsort : List Int → List Nat) (m : FlashInferMetadata Page Slot)
    (logitsIndices : List Nat) : Option (FlashInferMetadata Page Slot × List Nat) := do
  let tokenToReqId := (range m.numActualTokens).map fun t => searchsortedRight m.qoIndptr t - 1
  let flatReqIds ← gather tokenToReqId logitsIndices
  let counted := (unique flatReqIds).map fun r => (r, flatReqIds.count r)
  let decodes := counted.filter (·.2 = 1)
  let prefills := counted.filter (·.2 > 1)
  let reordered := decodes ++ prefills
  let reorderedReqIds := reordered.map Prod.fst
  let numPages ← gather (diff m.pagedKvIndptr) reorderedReqIds
  let starts ← gather m.pagedKvIndptr reorderedReqIds
  let stops ← gather m.pagedKvIndptr (reorderedReqIds.map (· + 1))
  let lastPageLen ← gather m.pagedKvLastPageLen reorderedReqIds
  -- the largest of no requests is an error
  let largest ← (counted.map Prod.fst).max?
  let newReqPositions ← gather (oldToNewReqPos (largest + 1) reorderedReqIds) flatReqIds
  let sortedIndices := argsort newReqPositions
  let reorderedLogitsIndices ← gather logitsIndices sortedIndices
  let slotMapping ← gather m.slotMapping reorderedLogitsIndices
  some ({
    numActualTokens := logitsIndices.length
    qoIndptr := cumulative (reordered.map Prod.snd)
    pagedKvIndptr := cumulative numPages
    pagedKvIndices := (starts.zip stops).flatMap fun entry => slice m.pagedKvIndices entry.1 entry.2
    pagedKvLastPageLen := lastPageLen
    slotMapping
    numDecodes := decodes.length
    numPrefills := prefills.length
    numDecodeTokens := decodes.length
    numPrefillTokens := prefills.length
    useCascade := false
    swiftkvInverseSortIndices := argsort (sortedIndices.map Int.ofNat) }, reorderedLogitsIndices)

/-! ## Forward -/

/-- `index_fn`: the rows at the indices, in a preallocated buffer when they fit it. -/
def indexFn (cudaGraphMaxBatchSize : Nat) (padForCudagraph : Nat → Nat) (buffer tensor : List Row)
    (indices : List Nat) : Option (List Row) := do
  let rows ← gather tensor indices
  if 0 < indices.length ∧ indices.length ≤ cudaGraphMaxBatchSize then
    some ((rows ++ buffer.drop rows.length).take (padForCudagraph indices.length))
  else some rows

/-- `orig_hidden_states[logits_indices] = rows`. -/
def writeBack (orig : List Hidden) (logitsIndices : List Nat) (rows : List Hidden) : List Hidden :=
  (logitsIndices.zip rows).foldl (fun out entry => out.set entry.1 entry.2) orig

/-- The decode runner and its buffers: `decodeRunner` gives one hidden state for each row. -/
structure Runner (Row Hidden : Type) where
  cudaGraphMaxBatchSize : Nat
  padForCudagraph : Nat → Nat
  buffer : List Row
  decodeRunner : List Row → List Hidden
  le_pad : ∀ n, n ≤ padForCudagraph n
  le_length_buffer : cudaGraphMaxBatchSize ≤ buffer.length
  length_decodeRunner : ∀ rows, (decodeRunner rows).length = rows.length

/-- `forward` from the selection on, with FlashAttention. -/
def forwardFlashAttention (k : Runner Row Hidden) (m : FlashAttentionMetadata Slot)
    (logitsIndices : List Nat) (rows : List Row) (orig : List Hidden) : Option (List Hidden) := do
  let _ ← fixFlashAttentionMetadata m logitsIndices
  let selected ← indexFn k.cudaGraphMaxBatchSize k.padForCudagraph k.buffer rows logitsIndices
  some (writeBack orig logitsIndices ((k.decodeRunner selected).take logitsIndices.length))

/-- `forward` from the selection on, with FlashInfer. -/
def forwardFlashinfer (argsort : List Int → List Nat) (k : Runner Row Hidden)
    (m : FlashInferMetadata Page Slot) (logitsIndices : List Nat) (rows : List Row)
    (orig : List Hidden) : Option (List Hidden) := do
  let (m', reorderedLogitsIndices) ← fixFlashinferMetadata argsort m logitsIndices
  let selected ← indexFn k.cudaGraphMaxBatchSize k.padForCudagraph k.buffer rows reorderedLogitsIndices
  let hidden ← gather (k.decodeRunner selected) m'.swiftkvInverseSortIndices
  some (writeBack orig logitsIndices (hidden.take logitsIndices.length))

/-! ## Batches -/

/-- A batch: the query lengths and the pages of its requests, and the tokens whose logits are needed. -/
structure Batch (Page Slot : Type) where
  queryLens : List Nat
  pages : List (List Page)
  lastPageLen : List Nat
  slotMapping : List Slot
  logitsIndices : List Nat
  length_pages : pages.length = queryLens.length
  length_lastPageLen : lastPageLen.length = queryLens.length
  le_length_slotMapping : queryLens.sum ≤ slotMapping.length
  increasing : logitsIndices.Pairwise (· < ·)
  in_batch : ∀ t ∈ logitsIndices, t < queryLens.sum

namespace Batch

variable (b : Batch Page Slot)

/-- The metadata for FlashInfer before the selection. -/
def flashinfer : FlashInferMetadata Page Slot where
  numActualTokens := b.queryLens.sum
  qoIndptr := cumulative b.queryLens
  pagedKvIndptr := cumulative (b.pages.map List.length)
  pagedKvIndices := b.pages.flatten
  pagedKvLastPageLen := b.lastPageLen
  slotMapping := b.slotMapping
  numDecodes := 0
  numPrefills := b.queryLens.length
  numDecodeTokens := 0
  numPrefillTokens := b.queryLens.sum
  useCascade := false
  swiftkvInverseSortIndices := []

/-- The metadata for FlashAttention before the selection. -/
def flashAttention : FlashAttentionMetadata Slot where
  numActualTokens := b.queryLens.sum
  queryStartLoc := cumulative b.queryLens
  slotMapping := b.slotMapping
  useCascade := false

/-- The first token of a request. -/
def start (r : Nat) : Nat := (b.queryLens.take r).sum

/-- The tokens of a request that survive. -/
def survivors (r : Nat) : List Nat :=
  b.logitsIndices.filter fun t => b.start r ≤ t ∧ t < b.start (r + 1)

/-- The requests with one surviving token. -/
def singles : List Nat := (range b.queryLens.length).filter fun r => (b.survivors r).length = 1

/-- The requests with several surviving tokens. -/
def several : List Nat := (range b.queryLens.length).filter fun r => (b.survivors r).length > 1

/-- The requests in the order in which they are listed. -/
def listed : List Nat := b.singles ++ b.several

/-- The pages of a request. -/
def pagesOf (r : Nat) : List Page := b.pages.getD r []

end Batch

/-! ## Tensor facts -/

theorem gather_eq_some {α : Type} {xs : List α} {indices : List Nat} {f : Nat → α}
    (h : ∀ i ∈ indices, xs[i]? = some (f i)) : gather xs indices = some (indices.map f) := by
  induction indices with
  | nil => rfl
  | cons i indices ih =>
    have hrest := ih fun j hj => h j (mem_cons_of_mem _ hj)
    rw [gather] at hrest ⊢
    rw [mapM_cons, h i mem_cons_self, hrest]
    rfl

/-- What is gathered from another tensor stands where it stood in the first one. -/
theorem gather_of_gather {α β : Type} {xs : List α} {zs : List β} (hle : xs.length ≤ zs.length)
    {indices : List Nat} {ys : List α} (h : gather xs indices = some ys) :
    ∃ ws, gather zs indices = some ws ∧ ws.length = ys.length ∧
      ∀ (i : Nat) y, ys[i]? = some y → ∃ j : Nat, xs[j]? = some y ∧ ws[i]? = zs[j]? := by
  induction indices generalizing ys with
  | nil =>
    cases h
    exact ⟨[], rfl, rfl, fun i y hi => by simp at hi⟩
  | cons j indices ih =>
    rw [gather, mapM_cons] at h
    cases hj : xs[j]? with
    | none => rw [hj] at h; cases h
    | some x =>
      cases hrest : gather xs indices with
      | none =>
        rw [gather] at hrest
        rw [hj, hrest] at h
        cases h
      | some rest =>
        obtain ⟨ws, hws, hlength, hplace⟩ := ih hrest
        rw [gather] at hrest hws
        rw [hj, hrest] at h
        cases h
        have hlt := ((List.getElem?_eq_some_iff.mp hj).1).trans_le hle
        refine ⟨zs[j] :: ws, ?_, congrArg Nat.succ hlength, ?_⟩
        · rw [gather, mapM_cons, getElem?_eq_getElem hlt, hws]
          rfl
        · rintro (_ | i) y hi
          · cases hi
            exact ⟨j, hj, (getElem?_eq_getElem hlt).symm⟩
          · exact hplace i y hi

theorem length_takeWhile {α : Type} {p : α → Bool} {xs : List α} {k : Nat} (hk : k ≤ xs.length)
    (hbefore : ∀ i x, i < k → xs[i]? = some x → p x = true) (hat : ∀ x, xs[k]? = some x → p x = false) :
    (xs.takeWhile p).length = k := by
  have htake : ∀ x ∈ xs.take k, p x = true := by
    intro x hx
    obtain ⟨i, hi⟩ := mem_iff_getElem?.mp hx
    rw [getElem?_take] at hi
    split at hi
    · rename_i hlt
      exact hbefore i x hlt hi
    · cases hi
  have hdrop : (xs.drop k).takeWhile p = [] := by
    cases hrest : xs.drop k with
    | nil => rfl
    | cons x rest =>
      have hx : xs[k]? = some x := by rw [← head?_drop, hrest]; rfl
      rw [takeWhile_cons_of_neg (by rw [hat x hx]; exact Bool.false_ne_true)]
  rw [← take_append_drop k xs, takeWhile_append_of_pos htake, hdrop, append_nil,
    length_take, min_eq_left hk]

variable {n : Nat}

theorem filter_range_add {p : Nat → Bool} (hp : ∀ r, p r = true → r < n) (d : Nat) :
    (range (n + d)).filter p = (range n).filter p := by
  induction d with
  | zero => rfl
  | succ d ih =>
    have hlast : p (n + d) = false := Bool.eq_false_iff.mpr fun h => by have := hp _ h; omega
    rw [← add_assoc, range_succ, filter_append, ih, filter_cons, hlast]
    exact append_nil _

theorem filter_range {p : Nat → Bool} {n m : Nat} (hn : ∀ r, p r = true → r < n)
    (hm : ∀ r, p r = true → r < m) : (range n).filter p = (range m).filter p := by
  rcases le_total n m with hle | hle
  · obtain ⟨d, rfl⟩ := Nat.exists_eq_add_of_le hle
    exact (filter_range_add hn d).symm
  · obtain ⟨d, rfl⟩ := Nat.exists_eq_add_of_le hle
    exact filter_range_add hm d

theorem map_getD_range (xs : List Nat) : (range xs.length).map (xs.getD · 0) = xs := by
  apply ext_getElem?
  intro i
  by_cases hi : i < xs.length <;> simp [hi, getD_eq_getElem?_getD]

theorem lt_bound {xs : List Nat} {x : Nat} (hx : x ∈ xs) :
    x < xs.foldr (fun x n => max (x + 1) n) 0 := by
  induction xs with
  | nil => exact absurd hx not_mem_nil
  | cons y xs ih =>
    rw [foldr_cons]
    rcases mem_cons.mp hx with rfl | hx
    · exact Nat.le_max_left _ _
    · exact (ih hx).trans_le (Nat.le_max_right _ _)

theorem unique_eq {xs : List Nat} (hxs : ∀ x ∈ xs, x < n) : unique xs = (range n).filter (· ∈ xs) :=
  filter_range (fun _ h => lt_bound (of_decide_eq_true h)) fun _ h => hxs _ (of_decide_eq_true h)

theorem Sorts.undo {argsort : List Int → List Nat} (hsorts : Sorts argsort) {perm : List Nat}
    (hperm : perm.Perm (range n)) :
    (argsort (perm.map Int.ofNat)).map (perm.getD · 0) = range n := by
  obtain ⟨hargsort, hsorted⟩ := hsorts (perm.map Int.ofNat)
  have hlength : perm.length = n := by rw [hperm.length_eq, length_range]
  rw [length_map, hlength] at hargsort
  have hkeys : ∀ i, (perm.map Int.ofNat).getD i 0 = Int.ofNat (perm.getD i 0) := by
    intro i
    rw [getD_eq_getElem?_getD, getD_eq_getElem?_getD, getElem?_map]
    cases perm[i]? <;> rfl
  simp only [hkeys] at hsorted
  have hmap : ((argsort (perm.map Int.ofNat)).map (perm.getD · 0)).Perm (range n) := by
    refine (hargsort.map _).trans ?_
    rwa [← hlength, map_getD_range, hlength]
  refine hmap.eq_of_pairwise' (r := (· ≤ ·)) ?_ pairwise_le_range
  rw [pairwise_map] at hsorted ⊢
  exact hsorted.imp fun h => Int.ofNat_le.mp h

/-! ## The request of a token -/

namespace Batch

variable {b : Batch Page Slot}

theorem start_mono : Monotone b.start := by
  refine monotone_nat_of_le_succ fun r => ?_
  rw [start, start, take_add_one, sum_append]
  exact Nat.le_add_right _ _

/-- `token_to_req_id`. -/
def requestOf (b : Batch Page Slot) (t : Nat) : Nat := searchsortedRight (cumulative b.queryLens) t - 1

theorem requestOf_eq {t r : Nat} (hr : r < b.queryLens.length) (hstart : b.start r ≤ t)
    (hstop : t < b.start (r + 1)) : b.requestOf t = r := by
  have hentry : ∀ i x, (cumulative b.queryLens)[i]? = some x → x = b.start i := by
    intro i x hx
    have hi := (List.getElem?_eq_some_iff.mp hx).1
    rw [length_cumulative] at hi
    rw [cumulative_getElem? (by omega)] at hx
    exact (Option.some.inj hx).symm
  have hlength : searchsortedRight (cumulative b.queryLens) t = r + 1 := by
    refine length_takeWhile (by rw [length_cumulative]; omega) ?_ ?_
    · intro i x hi hx
      rw [hentry i x hx, decide_eq_true_eq]
      exact (start_mono (by omega : i ≤ r)).trans hstart
    · intro x hx
      rw [hentry _ x hx, decide_eq_false_iff_not]
      omega
  rw [requestOf, hlength, Nat.add_sub_cancel]

variable {t : Nat}

theorem requestOf_spec (ht : t < b.queryLens.sum) :
    b.requestOf t < b.queryLens.length ∧ b.start (b.requestOf t) ≤ t ∧
      t < b.start (b.requestOf t + 1) := by
  obtain ⟨r, ⟨hr, hstart, hstop⟩, -⟩ := existsUnique_block ht
  rw [requestOf_eq hr hstart hstop]
  exact ⟨hr, hstart, hstop⟩

theorem survivors_eq (r : Nat) : b.survivors r = b.logitsIndices.filter fun t => b.requestOf t = r := by
  refine filter_congr fun t ht => ?_
  obtain ⟨hlt, hstart, hstop⟩ := requestOf_spec (b.in_batch t ht)
  refine decide_eq_decide.mpr ⟨fun h => ?_, fun h => h ▸ ⟨hstart, hstop⟩⟩
  rcases lt_trichotomy (b.requestOf t) r with hr | hr | hr
  · have := start_mono (b := b) (show b.requestOf t + 1 ≤ r from hr)
    omega
  · exact hr
  · have := start_mono (b := b) (show r + 1 ≤ b.requestOf t from hr)
    omega

theorem requestOf_lt (ht : t ∈ b.logitsIndices) : b.requestOf t < b.queryLens.length :=
  (requestOf_spec (b.in_batch t ht)).1

theorem count_requestOf (r : Nat) :
    (b.logitsIndices.map b.requestOf).count r = (b.survivors r).length := by
  rw [survivors_eq, count, countP_map, countP_eq_length_filter]
  rfl

/-! ## The listed requests -/

theorem mem_listed {r : Nat} : r ∈ b.listed ↔ r < b.queryLens.length ∧ 0 < (b.survivors r).length := by
  simp only [listed, singles, several, mem_append, mem_filter, mem_range, decide_eq_true_eq]
  omega

theorem listed_nodup : b.listed.Nodup := by
  refine Nodup.append (nodup_range.filter _) (nodup_range.filter _) ?_
  intro r hone hmany
  have h1 := of_decide_eq_true (mem_filter.mp hone).2
  have h2 := of_decide_eq_true (mem_filter.mp hmany).2
  omega

theorem requestOf_mem_listed (ht : t ∈ b.logitsIndices) : b.requestOf t ∈ b.listed := by
  refine mem_listed.mpr ⟨requestOf_lt ht, length_pos_of_mem (a := t) ?_⟩
  rw [survivors_eq]
  exact mem_filter.mpr ⟨ht, decide_eq_true rfl⟩

theorem unique_requestOf : unique (b.logitsIndices.map b.requestOf) =
    (range b.queryLens.length).filter fun r => 0 < (b.survivors r).length := by
  rw [unique_eq fun x hx => ?_]
  · refine filter_congr fun r _ => decide_eq_decide.mpr ?_
    rw [← count_requestOf, count_pos_iff]
  · obtain ⟨t, ht, rfl⟩ := mem_map.mp hx
    exact requestOf_lt ht

theorem filter_counted (p : Nat → Bool) (hp : p 0 = false) :
    ((unique (b.logitsIndices.map b.requestOf)).map fun r =>
        (r, (b.logitsIndices.map b.requestOf).count r)).filter (fun entry => p entry.2) =
      ((range b.queryLens.length).filter fun r => p (b.survivors r).length).map fun r =>
        (r, (b.survivors r).length) := by
  simp only [count_requestOf, unique_requestOf]
  rw [filter_map, filter_filter]
  refine congrArg _ (filter_congr fun r _ => ?_)
  cases hlength : (b.survivors r).length <;> simp [hlength, hp]

/-- The requests that are listed, with their counts: decodes first. -/
theorem reordered_eq :
    ((unique (b.logitsIndices.map b.requestOf)).map fun r =>
        (r, (b.logitsIndices.map b.requestOf).count r)).filter (·.2 = 1) ++
      ((unique (b.logitsIndices.map b.requestOf)).map fun r =>
        (r, (b.logitsIndices.map b.requestOf).count r)).filter (·.2 > 1) =
      b.listed.map fun r => (r, (b.survivors r).length) := by
  rw [filter_counted (· = 1) rfl, filter_counted (· > 1) rfl, listed, map_append]
  rfl

/-! ## Pages -/

theorem pages_getElem? {r : Nat} (hr : r < b.queryLens.length) : b.pages[r]? = some (b.pagesOf r) := by
  rw [pagesOf, getD_eq_getElem?_getD, getElem?_eq_getElem (by rw [b.length_pages]; exact hr)]
  rfl

variable {requests : List Nat}

section

variable (h : ∀ r ∈ requests, r < b.queryLens.length)
include h

theorem gather_diff :
    gather (diff (cumulative (b.pages.map List.length))) requests =
      some (requests.map fun r => (b.pagesOf r).length) := by
  refine gather_eq_some fun r hr => ?_
  have hget : (b.pages.map List.length)[r]? = some (b.pagesOf r).length := by
    rw [getElem?_map, pages_getElem? (h r hr)]
    rfl
  have hlt : r < (b.pages.map List.length).length := by
    rw [length_map, b.length_pages]
    exact h r hr
  rw [diff, cumulative_zip_tail, map_map, getElem?_map, getElem?_range hlt,
    Option.map_some, Function.comp_apply, sum_take_succ hget, Nat.add_sub_cancel_left]

theorem gather_indptr (d : Nat) (hd : d ≤ 1) :
    gather (cumulative (b.pages.map List.length)) (requests.map (· + d)) =
      some (requests.map fun r => ((b.pages.map List.length).take (r + d)).sum) := by
  have hgather : gather (cumulative (b.pages.map List.length)) (requests.map (· + d)) =
      some ((requests.map (· + d)).map fun i => ((b.pages.map List.length).take i).sum) := by
    refine gather_eq_some fun i hi => cumulative_getElem? ?_
    obtain ⟨r, hr, rfl⟩ := mem_map.mp hi
    have hlt := h r hr
    rw [length_map, b.length_pages]
    omega
  rw [hgather, map_map]
  rfl

theorem flatMap_slices :
    ((requests.map fun r => ((b.pages.map List.length).take (r + 0)).sum).zip
        (requests.map fun r => ((b.pages.map List.length).take (r + 1)).sum)).flatMap
      (fun entry => slice b.pages.flatten entry.1 entry.2) = requests.flatMap b.pagesOf := by
  rw [zip_map', flatMap_map]
  exact flatMap_congr fun r hr => slice_flatten (pages_getElem? (h r hr))

end

/-! ## Positions of the requests -/

/-- The new position of a token's request. -/
def newPosition (b : Batch Page Slot) (t : Nat) : Nat := b.listed.idxOf (b.requestOf t)

theorem gather_newPosition {largest : Nat} (hlargest : ∀ r ∈ b.listed, r ≤ largest) :
    gather (oldToNewReqPos (largest + 1) b.listed) (b.logitsIndices.map b.requestOf) =
      some (b.logitsIndices.map fun t => Int.ofNat (b.newPosition t)) := by
  have hgather : gather (oldToNewReqPos (largest + 1) b.listed) (b.logitsIndices.map b.requestOf) =
      some ((b.logitsIndices.map b.requestOf).map fun r => Int.ofNat (b.listed.idxOf r)) := by
    refine gather_eq_some fun r hr => ?_
    obtain ⟨t, ht, rfl⟩ := mem_map.mp hr
    have hmem := requestOf_mem_listed ht
    refine IndexWrites.getElem?_foldl_set ?_ ?_ ?_
    · rw [map_fst_zip (by simp)]
      exact listed_nodup
    · refine mem_iff_getElem?.mpr ⟨b.listed.idxOf (b.requestOf t), ?_⟩
      rw [getElem?_zip_eq_some]
      have hlt := idxOf_lt_length_of_mem hmem
      exact ⟨by simp [hmem], by simp [hlt]⟩
    · rw [length_replicate]
      exact Nat.lt_succ_of_le (hlargest _ hmem)
  rw [hgather, map_map]
  rfl

/-! ## The rebuilt metadata -/

/-- The query table, the page table and the slots are those of the listed requests and of the tokens. -/
structure Regrouped (b : Batch Page Slot) (m : FlashInferMetadata Page Slot) (tokens : List Nat) :
    Prop where
  qoIndptr : m.qoIndptr = cumulative (b.listed.map fun r => (b.survivors r).length)
  pagedKvIndptr : m.pagedKvIndptr = cumulative (b.listed.map fun r => (b.pagesOf r).length)
  pagedKvIndices : m.pagedKvIndices = b.listed.flatMap b.pagesOf
  lastPageLen : gather b.lastPageLen b.listed = some m.pagedKvLastPageLen
  slotMapping : gather b.slotMapping tokens = some m.slotMapping

/-- What the rebuilt metadata says, whichever order the sort gives to tokens of one request. -/
structure Rebuilt (b : Batch Page Slot) (m : FlashInferMetadata Page Slot) (tokens : List Nat) :
    Prop extends Regrouped b m tokens where
  perm : tokens.Perm b.logitsIndices
  segments : tokens = b.listed.flatMap fun r => tokens.filter fun t => b.requestOf t = r
  numDecodeTokens : m.numDecodeTokens = b.singles.length
  numPrefillTokens : m.numPrefillTokens = b.several.length
  undo : gather tokens m.swiftkvInverseSortIndices = some b.logitsIndices

theorem segments_of_sorted {tokens : List Nat} (hperm : tokens.Perm b.logitsIndices)
    (hsorted : tokens.Pairwise fun t u => b.newPosition t ≤ b.newPosition u) :
    tokens = b.listed.flatMap fun r => tokens.filter fun t => b.requestOf t = r := by
  have hmem : ∀ t ∈ tokens, b.requestOf t ∈ b.listed :=
    fun t ht => requestOf_mem_listed (hperm.mem_iff.mp ht)
  have hgroups := StableSort.sorted_eq_flatMap b.newPosition
    (hsorted.imp fun h => decide_eq_true h) fun t ht => idxOf_lt_length_of_mem (hmem t ht)
  conv_rhs => rw [← map_getD_range b.listed, flatMap_map]
  refine hgroups.trans (flatMap_congr fun k hk => filter_congr fun t ht => ?_)
  have hlt := mem_range.mp hk
  rw [getD_eq_getElem?_getD, getElem?_eq_getElem hlt, Option.getD_some]
  refine decide_eq_decide.mpr ⟨fun h => ?_, fun h => ?_⟩
  · subst h
    exact (getElem_idxOf hlt).symm
  · rw [newPosition, h]
    exact listed_nodup.idxOf_getElem k hlt

theorem exists_largest (hne : b.logitsIndices ≠ []) :
    ∃ largest, (((unique (b.logitsIndices.map b.requestOf)).map fun r =>
        (r, (b.logitsIndices.map b.requestOf).count r)).map Prod.fst).max? = some largest ∧
      ∀ r ∈ b.listed, r ≤ largest := by
  have hfst : (((unique (b.logitsIndices.map b.requestOf)).map fun r =>
      (r, (b.logitsIndices.map b.requestOf).count r)).map Prod.fst) =
      unique (b.logitsIndices.map b.requestOf) := by
    rw [map_map]
    exact map_id' _
  have hmem : ∀ r ∈ b.listed, r ∈ unique (b.logitsIndices.map b.requestOf) := by
    intro r hr
    rw [unique_requestOf, mem_filter, mem_range, decide_eq_true_eq]
    exact mem_listed.mp hr
  obtain ⟨t, ht⟩ := exists_mem_of_ne_nil _ hne
  rw [hfst]
  cases hmax : (unique (b.logitsIndices.map b.requestOf)).max? with
  | none =>
    have hnil := max?_eq_none_iff.mp hmax
    exact absurd (hmem _ (requestOf_mem_listed ht)) (by rw [hnil]; exact not_mem_nil)
  | some largest => exact ⟨largest, rfl, fun r hr => (max?_eq_some_iff.mp hmax).2 r (hmem r hr)⟩

theorem gather_undo {argsort : List Int → List Nat} (hsorts : Sorts argsort) {xs sorted : List Nat}
    (hsorted : sorted.Perm (range xs.length)) :
    gather (sorted.map (xs.getD · 0)) (argsort (sorted.map Int.ofNat)) = some xs := by
  have hundo := hsorts.undo hsorted
  have hlt : ∀ i ∈ argsort (sorted.map Int.ofNat), i < sorted.length := by
    intro i hi
    have hmem := (hsorts (sorted.map Int.ofNat)).1.mem_iff.mp hi
    rwa [length_map, mem_range] at hmem
  have hgather : gather (sorted.map (xs.getD · 0)) (argsort (sorted.map Int.ofNat)) =
      some ((argsort (sorted.map Int.ofNat)).map fun i => xs.getD (sorted.getD i 0) 0) := by
    refine gather_eq_some fun i hi => ?_
    rw [getElem?_map, getD_eq_getElem?_getD (l := sorted), getElem?_eq_getElem (hlt i hi)]
    rfl
  rw [hgather, ← Function.comp_def (xs.getD · 0) (sorted.getD · 0), ← map_map, hundo, map_getD_range]

theorem gather_slots {tokens : List Nat} (h : ∀ t ∈ tokens, t < b.queryLens.sum) :
    ∃ slots, gather b.slotMapping tokens = some slots := by
  induction tokens with
  | nil => exact ⟨[], rfl⟩
  | cons t tokens ih =>
    obtain ⟨slots, hslots⟩ := ih fun u hu => h u (mem_cons_of_mem _ hu)
    have hlt : t < b.slotMapping.length := (h t mem_cons_self).trans_le b.le_length_slotMapping
    rw [gather] at hslots ⊢
    exact ⟨b.slotMapping[t] :: slots, by
      rw [mapM_cons, getElem?_eq_getElem hlt, hslots]; rfl⟩

/-- A batch with a surviving token is rebuilt. -/
theorem exists_rebuilt {argsort : List Int → List Nat} (hsorts : Sorts argsort)
    (hne : b.logitsIndices ≠ []) :
    ∃ m tokens, fixFlashinferMetadata argsort b.flashinfer b.logitsIndices = some (m, tokens) ∧
      b.Rebuilt m tokens := by
  have hlisted : ∀ r ∈ b.listed, r < b.queryLens.length := fun r hr => (mem_listed.mp hr).1
  have hrequests : gather ((range b.queryLens.sum).map fun t =>
      searchsortedRight (cumulative b.queryLens) t - 1) b.logitsIndices =
      some (b.logitsIndices.map b.requestOf) := by
    refine gather_eq_some fun t ht => ?_
    rw [getElem?_map, getElem?_range (b.in_batch t ht)]
    rfl
  have hfst : (b.listed.map fun r => (r, (b.survivors r).length)).map Prod.fst = b.listed := by
    rw [map_map]
    exact map_id' _
  have hsnd : (b.listed.map fun r => (r, (b.survivors r).length)).map Prod.snd =
      b.listed.map fun r => (b.survivors r).length := map_map
  have hlastPageLen : gather b.lastPageLen b.listed = some (b.listed.map (b.lastPageLen.getD · 0)) := by
    refine gather_eq_some fun r hr => ?_
    have hlt : r < b.lastPageLen.length := (hlisted r hr).trans_eq b.length_lastPageLen.symm
    rw [getD_eq_getElem?_getD, getElem?_eq_getElem hlt]
    rfl
  obtain ⟨largest, hmax, hlargest⟩ := exists_largest hne
  have hstarts := gather_indptr hlisted 0 zero_le
  rw [show b.listed.map (· + 0) = b.listed from map_id' _] at hstarts
  -- the sort
  obtain ⟨sorted, hsort⟩ : ∃ sorted, argsort (b.logitsIndices.map fun t => Int.ofNat (b.newPosition t)) =
      sorted := ⟨_, rfl⟩
  obtain ⟨hsorted, hkeys⟩ := hsorts (b.logitsIndices.map fun t => Int.ofNat (b.newPosition t))
  rw [hsort] at hsorted hkeys
  rw [length_map] at hsorted
  have hplace : ∀ i ∈ sorted, b.logitsIndices[i]? = some (b.logitsIndices.getD i 0) := by
    intro i hi
    have hlt := mem_range.mp (hsorted.mem_iff.mp hi)
    rw [getD_eq_getElem?_getD, getElem?_eq_getElem hlt]
    rfl
  have htokens : gather b.logitsIndices sorted = some (sorted.map (b.logitsIndices.getD · 0)) :=
    gather_eq_some hplace
  have hperm : (sorted.map (b.logitsIndices.getD · 0)).Perm b.logitsIndices :=
    (hsorted.map _).trans (by rw [map_getD_range])
  have hpairwise : (sorted.map (b.logitsIndices.getD · 0)).Pairwise
      fun t u => b.newPosition t ≤ b.newPosition u := by
    rw [pairwise_map] at hkeys ⊢
    refine hkeys.imp_of_mem fun {i j} hi hj hle => ?_
    have hi' := mem_range.mp (hsorted.mem_iff.mp hi)
    have hj' := mem_range.mp (hsorted.mem_iff.mp hj)
    simp only [getD_eq_getElem?_getD, getElem?_map, getElem?_eq_getElem hi',
      getElem?_eq_getElem hj', Option.map_some, Option.getD_some] at hle ⊢
    exact Int.ofNat_le.mp hle
  obtain ⟨slots, hslots⟩ := gather_slots fun t ht => b.in_batch t (hperm.mem_iff.mp ht)
  have hdecodes := congrArg List.length (filter_counted (b := b) (· = 1) rfl)
  have hprefills := congrArg List.length (filter_counted (b := b) (· > 1) rfl)
  rw [length_map] at hdecodes hprefills
  refine ⟨{
    numActualTokens := b.logitsIndices.length
    qoIndptr := cumulative (b.listed.map fun r => (b.survivors r).length)
    pagedKvIndptr := cumulative (b.listed.map fun r => (b.pagesOf r).length)
    pagedKvIndices := b.listed.flatMap b.pagesOf
    pagedKvLastPageLen := b.listed.map (b.lastPageLen.getD · 0)
    slotMapping := slots
    numDecodes := b.singles.length
    numPrefills := b.several.length
    numDecodeTokens := b.singles.length
    numPrefillTokens := b.several.length
    useCascade := false
    swiftkvInverseSortIndices := argsort (sorted.map Int.ofNat) },
    sorted.map (b.logitsIndices.getD · 0), ?_, ⟨⟨rfl, rfl, rfl, hlastPageLen, hslots⟩, hperm,
      segments_of_sorted hperm hpairwise, rfl, rfl, gather_undo hsorts hsorted⟩⟩
  rw [fixFlashinferMetadata]
  dsimp only [flashinfer]
  simp only [hrequests, Option.bind_eq_bind, Option.bind_some, reordered_eq, hfst, gather_diff hlisted,
    hstarts, gather_indptr hlisted 1 le_rfl, hlastPageLen, hmax, gather_newPosition hlargest, hsort,
    htokens, hslots, flatMap_slices hlisted, hdecodes, hprefills, hsnd]
  rfl

end Batch

end ArcticPlatform.SwiftKV
