import ArcticPlatform.SwiftKV.Metadata

/-!
# SwiftKV: the tokens that survive

The two attention backends, from the metadata to the rows that are written back.

Main results:

- Theorem `forwardFlashinfer_writesBack`: every token gets the row that was selected for it.
- Theorem `exists_flashAttentionKeeps`: the FlashAttention metadata, for every batch.
- Theorem `keeps_iff`: when the tokens keep their order and the counts are those of tokens.
-/

namespace ArcticPlatform.SwiftKV

open Slices List

variable {Page Slot Row Hidden : Type}

/-! ## Selection and write-back -/

theorem indexFn_spec (maxBatch : Nat) {pad : Nat → Nat} (hpad : ∀ n, n ≤ pad n) (buffer : List Row)
    {tensor : List Row} {indices : List Nat} (h : ∀ t ∈ indices, t < tensor.length) :
    ∃ selected, indexFn maxBatch pad buffer tensor indices = some selected ∧
      ∀ j t : Nat, indices[j]? = some t → selected[j]? = tensor[t]? := by
  cases indices with
  | nil => exact ⟨[], rfl, fun j t hj => by simp at hj⟩
  | cons t₀ indices =>
    have hne : tensor ≠ [] := ne_nil_of_length_pos (zero_le.trans_lt (h t₀ mem_cons_self))
    have hgather : gather tensor (t₀ :: indices) =
        some ((t₀ :: indices).map fun t => tensor.getD t (tensor.head hne)) := by
      refine gather_eq_some fun t ht => ?_
      rw [getD_eq_getElem?_getD, getElem?_eq_getElem (h t ht)]
      rfl
    have hrows : ∀ j t : Nat, (t₀ :: indices)[j]? = some t →
        ((t₀ :: indices).map fun t => tensor.getD t (tensor.head hne))[j]? = tensor[t]? := by
      intro j t hj
      have hlt := h t (mem_of_getElem? hj)
      rw [getElem?_map, hj, Option.map_some, getD_eq_getElem?_getD, getElem?_eq_getElem hlt]
      rfl
    by_cases hfit : 0 < (t₀ :: indices).length ∧ (t₀ :: indices).length ≤ maxBatch
    · refine ⟨_, by rw [indexFn, hgather]; exact if_pos hfit, fun j t hj => ?_⟩
      have hlt := (List.getElem?_eq_some_iff.mp hj).1
      have hle := hpad (t₀ :: indices).length
      rw [getElem?_take, if_pos (by omega), getElem?_append_left (by rwa [length_map])]
      exact hrows j t hj
    · exact ⟨_, by rw [indexFn, hgather]; exact if_neg hfit, hrows⟩

/-- The rows at the indices are replaced, one each, and no others. -/
theorem writeBack_spec {orig rows : List Hidden} {logitsIndices : List Nat} (hnodup : logitsIndices.Nodup)
    (hlt : ∀ t ∈ logitsIndices, t < orig.length) (hrows : logitsIndices.length ≤ rows.length) :
    (∀ i t : Nat, logitsIndices[i]? = some t →
        (writeBack orig logitsIndices (rows.take logitsIndices.length))[t]? = rows[i]?) ∧
      ∀ t, t ∉ logitsIndices →
        (writeBack orig logitsIndices (rows.take logitsIndices.length))[t]? = orig[t]? := by
  have hfst : (logitsIndices.zip (rows.take logitsIndices.length)).map Prod.fst = logitsIndices :=
    map_fst_zip (by rw [length_take]; omega)
  refine ⟨fun i t hi => ?_, fun t ht => IndexWrites.getElem?_foldl_set_of_notMem _ (by rwa [hfst])⟩
  have hlen := (List.getElem?_eq_some_iff.mp hi).1
  rw [getElem?_eq_getElem (hlen.trans_le hrows)]
  refine IndexWrites.getElem?_foldl_set (by rwa [hfst]) (mem_iff_getElem?.mpr ⟨i, ?_⟩)
    (hlt t (mem_of_getElem? hi))
  rw [getElem?_zip_eq_some, getElem?_take, if_pos hlen]
  exact ⟨hi, getElem?_eq_getElem (hlen.trans_le hrows)⟩

/-- The value for the token of every selected row is written where the token was, and nothing else. -/
def WritesBack (k : Runner Row Hidden) (rows : List Row) (orig : List Hidden) (tokens : List Nat)
    (out : List Hidden) : Prop :=
  ∃ selected, (∀ j t : Nat, tokens[j]? = some t →
      selected[j]? = rows[t]? ∧ out[t]? = (k.decodeRunner selected)[j]?) ∧
    ∀ t, t ∉ tokens → out[t]? = orig[t]?

namespace Batch

variable {b : Batch Page Slot} {k : Runner Row Hidden} {rows : List Row} {orig : List Hidden}

theorem logitsIndices_nodup : b.logitsIndices.Nodup := b.increasing.imp fun h => ne_of_lt h

theorem le_length_of_getElem? {α : Type} {tokens : List Nat} {selected : List α} {rows : List α}
    (hlt : ∀ t ∈ tokens, t < rows.length)
    (h : ∀ j t : Nat, tokens[j]? = some t → selected[j]? = rows[t]?) : tokens.length ≤ selected.length := by
  by_contra hgt
  obtain ⟨j, hj⟩ : ∃ j, j = selected.length := ⟨_, rfl⟩
  have hget := h j _ (getElem?_eq_getElem (by omega))
  have hlt' := hlt _ (getElem_mem (show j < tokens.length by omega))
  rw [getElem?_eq_none (by omega), getElem?_eq_getElem hlt'] at hget
  exact absurd hget (by simp)

/-- FlashInfer: the values are put back by the inverse order. -/
theorem forwardFlashinfer_writesBack {argsort : List Int → List Nat}
    {m : FlashInferMetadata Page Slot} {tokens : List Nat}
    (hfix : fixFlashinferMetadata argsort b.flashinfer b.logitsIndices = some (m, tokens))
    (hm : b.Rebuilt m tokens) (hrows : ∀ t ∈ b.logitsIndices, t < rows.length)
    (horig : ∀ t ∈ b.logitsIndices, t < orig.length) :
    ∃ out, forwardFlashinfer argsort k b.flashinfer b.logitsIndices rows orig = some out ∧
      WritesBack k rows orig tokens out := by
  have hrows' : ∀ t ∈ tokens, t < rows.length := fun t ht => hrows t (hm.perm.mem_iff.mp ht)
  obtain ⟨selected, hselected, hget⟩ := indexFn_spec k.cudaGraphMaxBatchSize k.le_pad k.buffer hrows'
  have hlength : tokens.length ≤ (k.decodeRunner selected).length := by
    rw [k.length_decodeRunner]
    exact le_length_of_getElem? hrows' hget
  obtain ⟨hidden, hhidden, hlen, hplace⟩ := gather_of_gather hlength hm.undo
  obtain ⟨hwrite, hkeep⟩ := writeBack_spec logitsIndices_nodup horig hlen.ge
  refine ⟨_, by simp only [forwardFlashinfer, hfix, Option.bind_eq_bind, Option.bind_some, hselected, hhidden],
    selected, fun j t hj => ⟨hget j t hj, ?_⟩, fun t ht => hkeep t fun hmem => ht (hm.perm.mem_iff.mpr hmem)⟩
  obtain ⟨i, hi⟩ := mem_iff_getElem?.mp (hm.perm.mem_iff.mp (mem_of_getElem? hj))
  obtain ⟨j', hj', hvalue⟩ := hplace i t hi
  have hsame : j' = j := by
    have hnodup : tokens.Nodup := hm.perm.nodup_iff.mpr logitsIndices_nodup
    have hlt := (List.getElem?_eq_some_iff.mp hj').1
    exact (getElem?_inj hlt hnodup).mp (hj'.trans hj.symm)
  rw [hwrite i t hi, hvalue, hsame]

theorem forwardFlashAttention_writesBack {m : FlashAttentionMetadata Slot}
    (hfix : fixFlashAttentionMetadata b.flashAttention b.logitsIndices = some m)
    (hrows : ∀ t ∈ b.logitsIndices, t < rows.length) (horig : ∀ t ∈ b.logitsIndices, t < orig.length) :
    ∃ out, forwardFlashAttention k b.flashAttention b.logitsIndices rows orig = some out ∧
      WritesBack k rows orig b.logitsIndices out := by
  obtain ⟨selected, hselected, hget⟩ := indexFn_spec k.cudaGraphMaxBatchSize k.le_pad k.buffer hrows
  have hlength : b.logitsIndices.length ≤ (k.decodeRunner selected).length := by
    rw [k.length_decodeRunner]
    exact le_length_of_getElem? hrows hget
  obtain ⟨hwrite, hkeep⟩ := writeBack_spec logitsIndices_nodup horig hlength
  exact ⟨_, by simp only [forwardFlashAttention, hfix, Option.bind_eq_bind, Option.bind_some, hselected],
    selected, fun j t hj => ⟨hget j t hj, hwrite j t hj⟩, hkeep⟩

/-! ## FlashAttention -/

theorem requestOf_mono {t u : Nat} (hu : u < b.queryLens.sum) (h : t ≤ u) :
    b.requestOf t ≤ b.requestOf u := by
  obtain ⟨-, hstart, -⟩ := requestOf_spec (h.trans_lt hu)
  obtain ⟨-, -, hstop⟩ := requestOf_spec hu
  by_contra hlt
  have hmono := start_mono (b := b) (show b.requestOf u + 1 ≤ b.requestOf t by omega)
  omega

theorem logitsIndices_eq : b.logitsIndices = (range b.queryLens.length).flatMap b.survivors := by
  have hsorted : b.logitsIndices.Pairwise fun t u => StableSort.keyLe b.requestOf t u = true :=
    b.increasing.imp_of_mem fun _ hu h => decide_eq_true (requestOf_mono (b.in_batch _ hu) h.le)
  refine (StableSort.sorted_eq_flatMap b.requestOf hsorted fun t ht => requestOf_lt ht).trans ?_
  exact flatMap_congr fun r _ => (survivors_eq r).symm

theorem searchsortedLeft_start {r : Nat} (hr : r ≤ b.queryLens.length) :
    searchsortedLeft b.logitsIndices (b.start r) =
      (((range b.queryLens.length).map fun i => (b.survivors i).length).take r).sum := by
  have hsplit : b.logitsIndices = ((range b.queryLens.length).take r).flatMap b.survivors ++
      ((range b.queryLens.length).drop r).flatMap b.survivors := by
    rw [← flatMap_append, take_append_drop]
    exact logitsIndices_eq
  have hmem : ∀ {i t}, t ∈ b.survivors i → b.start i ≤ t ∧ t < b.start (i + 1) :=
    fun ht => of_decide_eq_true (mem_filter.mp ht).2
  have hbefore : ∀ t ∈ ((range b.queryLens.length).take r).flatMap b.survivors,
      decide (t < b.start r) = true := by
    intro t ht
    obtain ⟨i, hi, ht⟩ := mem_flatMap.mp ht
    rw [take_range, min_eq_left hr, mem_range] at hi
    exact decide_eq_true ((hmem ht).2.trans_le (start_mono hi))
  have hbehind : (((range b.queryLens.length).drop r).flatMap b.survivors).takeWhile
      (fun t => decide (t < b.start r)) = [] := by
    have hnot : ∀ t ∈ ((range b.queryLens.length).drop r).flatMap b.survivors,
        ¬ decide (t < b.start r) = true := by
      intro t ht
      obtain ⟨i, hi, ht⟩ := mem_flatMap.mp ht
      have hle : r ≤ i := by
        obtain ⟨j, hj⟩ := mem_iff_getElem?.mp hi
        rw [getElem?_drop] at hj
        have := List.getElem?_eq_some_iff.mp hj
        simp only [getElem_range] at this
        omega
      have hstart := (start_mono hle).trans (hmem ht).1
      rw [decide_eq_true_eq]
      omega
    cases hrest : ((range b.queryLens.length).drop r).flatMap b.survivors with
    | nil => rfl
    | cons t rest => exact takeWhile_cons_of_neg (hnot t (by rw [hrest]; exact mem_cons_self))
  rw [searchsortedLeft, hsplit, takeWhile_append_of_pos hbefore, hbehind, append_nil,
    length_flatMap, map_take]

/-- The metadata for FlashAttention delimits the survivors of every request. -/
structure FlashAttentionKeeps (b : Batch Page Slot) (m : FlashAttentionMetadata Slot) : Prop where
  queryStartLoc : m.queryStartLoc =
    cumulative ((range b.queryLens.length).map fun r => (b.survivors r).length)
  segments : b.logitsIndices = (range b.queryLens.length).flatMap b.survivors
  slotMapping : gather b.slotMapping b.logitsIndices = some m.slotMapping

theorem exists_flashAttentionKeeps : ∃ m,
    fixFlashAttentionMetadata b.flashAttention b.logitsIndices = some m ∧ b.FlashAttentionKeeps m := by
  obtain ⟨slots, hslots⟩ := gather_slots b.in_batch
  refine ⟨⟨b.logitsIndices.length, (cumulative b.queryLens).map (searchsortedLeft b.logitsIndices), slots,
    false⟩, ?_, ?_, logitsIndices_eq, hslots⟩
  · simp only [fixFlashAttentionMetadata, flashAttention, hslots, Option.bind_eq_bind, Option.bind_some]
  apply ext_getElem?
  intro r
  by_cases hr : r ≤ b.queryLens.length
  · rw [getElem?_map, cumulative_getElem? hr, cumulative_getElem? (by simpa using hr)]
    exact congrArg some (searchsortedLeft_start hr)
  · rw [getElem?_eq_none (by rw [length_map, length_cumulative]; omega),
      getElem?_eq_none (by rw [length_cumulative, length_map, length_range]; omega)]

/-! ## The batches whose tokens stay in place -/

/-- The metadata for FlashInfer keeps the surviving tokens: the segments of the listed requests are their
own tokens in their order, and the numbers of tokens are those of the two parts. -/
structure FlashinferKeeps (b : Batch Page Slot) (m : FlashInferMetadata Page Slot) (tokens : List Nat) :
    Prop extends Regrouped b m tokens where
  segments : tokens = b.listed.flatMap b.survivors
  numDecodeTokens : m.numDecodeTokens = (b.singles.flatMap b.survivors).length
  numPrefillTokens : m.numPrefillTokens = (b.several.flatMap b.survivors).length

/-- Surviving tokens stay in place, with both backends and in `forward`. -/
def Keeps (b : Batch Page Slot) (argsort : List Int → List Nat) : Prop :=
  (∃ m, fixFlashAttentionMetadata b.flashAttention b.logitsIndices = some m ∧ b.FlashAttentionKeeps m) ∧
    ∃ m tokens, fixFlashinferMetadata argsort b.flashinfer b.logitsIndices = some (m, tokens) ∧
      b.FlashinferKeeps m tokens ∧
        ∀ (Row Hidden : Type) (k : Runner Row Hidden) (rows : List Row) (orig : List Hidden),
          rows.length = b.queryLens.sum → orig.length = b.queryLens.sum →
            (∃ out, forwardFlashAttention k b.flashAttention b.logitsIndices rows orig = some out ∧
              WritesBack k rows orig b.logitsIndices out) ∧
            ∃ out, forwardFlashinfer argsort k b.flashinfer b.logitsIndices rows orig = some out ∧
              WritesBack k rows orig tokens out

theorem fix_of_nil {argsort : List Int → List Nat} (m : FlashInferMetadata Page Slot) :
    fixFlashinferMetadata argsort m [] = none := by
  simp [fixFlashinferMetadata, gather, unique]

theorem length_flatMap_singles : (b.singles.flatMap b.survivors).length = b.singles.length := by
  have hone : b.singles.map (fun r => (b.survivors r).length) = b.singles.map fun _ => 1 :=
    map_congr_left fun r hr => of_decide_eq_true (mem_filter.mp hr).2
  rw [length_flatMap, hone, map_const', sum_replicate, smul_eq_mul, mul_one]

theorem several_eq_nil (h : b.several.length = (b.several.flatMap b.survivors).length) : b.several = [] := by
  have hmany : ∀ r ∈ b.several, 2 ≤ (b.survivors r).length :=
    fun r hr => of_decide_eq_true (mem_filter.mp hr).2
  have hle : 2 * b.several.length ≤ (b.several.map fun r => (b.survivors r).length).sum := by
    rw [mul_comm, ← smul_eq_mul, ← length_map]
    refine card_nsmul_le_sum _ 2 fun n hn => ?_
    obtain ⟨r, hr, rfl⟩ := mem_map.mp hn
    exact hmany r hr
  rw [length_flatMap] at h
  exact length_eq_zero_iff.mp (by omega)

/-- The surviving tokens stay in place exactly if there is one and no request has two. -/
theorem keeps_iff {argsort : List Int → List Nat} (hsorts : Sorts argsort) (b : Batch Page Slot) :
    b.Keeps argsort ↔
      b.logitsIndices ≠ [] ∧ ∀ r < b.queryLens.length, (b.survivors r).length ≤ 1 := by
  constructor
  · rintro ⟨-, m, tokens, hfix, hkeeps, -⟩
    have hne : b.logitsIndices ≠ [] := fun hnil => by
      rw [hnil, fix_of_nil] at hfix
      cases hfix
    obtain ⟨m', tokens', hfix', hm⟩ := exists_rebuilt hsorts hne
    obtain ⟨rfl, rfl⟩ := Prod.mk.inj (Option.some.inj (hfix.symm.trans hfix'))
    have hnil := several_eq_nil (hm.numPrefillTokens.symm.trans hkeeps.numPrefillTokens)
    refine ⟨hne, fun r hr => ?_⟩
    by_contra hgt
    have hmem : r ∈ b.several := mem_filter.mpr ⟨mem_range.mpr hr, decide_eq_true (by omega)⟩
    rw [hnil] at hmem
    exact absurd hmem not_mem_nil
  · rintro ⟨hne, hone⟩
    obtain ⟨m, tokens, hfix, hm⟩ := exists_rebuilt hsorts hne
    have hseveral : b.several = [] := filter_eq_nil_iff.mpr fun r hr => by
      have := hone r (mem_range.mp hr)
      rw [decide_eq_true_eq]
      omega
    -- a segment of one token has only one order
    have hsegments : tokens = b.listed.flatMap b.survivors := by
      refine hm.segments.trans (flatMap_congr fun r hr => ?_)
      obtain ⟨hlt, hpos⟩ := mem_listed.mp hr
      have hperm := hm.perm.filter fun t => b.requestOf t = r
      rw [← survivors_eq] at hperm
      obtain ⟨t, ht⟩ := List.length_eq_one_iff.mp (le_antisymm (hone r hlt) hpos)
      rw [ht] at hperm ⊢
      exact perm_singleton.mp hperm
    obtain ⟨ma, hma, hattention⟩ := exists_flashAttentionKeeps (b := b)
    refine ⟨⟨ma, hma, hattention⟩, m, tokens, hfix, ?_, ?_⟩
    · exact ⟨hm.toRegrouped, hsegments, by rw [hm.numDecodeTokens, length_flatMap_singles],
        by rw [hm.numPrefillTokens, hseveral]; rfl⟩
    · intro Row Hidden k rows orig hrows horig
      have hrows' : ∀ t ∈ b.logitsIndices, t < rows.length := hrows ▸ b.in_batch
      have horig' : ∀ t ∈ b.logitsIndices, t < orig.length := horig ▸ b.in_batch
      exact ⟨forwardFlashAttention_writesBack hma hrows' horig',
        forwardFlashinfer_writesBack hfix hm hrows' horig'⟩

end Batch

/-! ## A sort that is not stable -/

/-- A later key comes first among equal ones. -/
def latestLe (a b : Int × Nat) : Prop := a.1 < b.1 ∨ a.1 = b.1 ∧ b.2 ≤ a.2

instance : DecidableRel latestLe := fun a b =>
  inferInstanceAs (Decidable (a.1 < b.1 ∨ a.1 = b.1 ∧ b.2 ≤ a.2))

instance : Std.Total latestLe := ⟨fun a b => by unfold latestLe; omega⟩

instance : IsTrans (Int × Nat) latestLe := ⟨fun a b c hab hbc => by unfold latestLe at *; omega⟩

/-- A sort of the keys, the later ones first among equal keys. -/
def latestFirst (keys : List Int) : List Nat := (keys.zipIdx.insertionSort latestLe).map Prod.snd

theorem sorts_latestFirst : Sorts latestFirst := by
  intro keys
  have hperm := perm_insertionSort latestLe keys.zipIdx
  constructor
  · have hrange : keys.zipIdx.map Prod.snd = range keys.length := by simp [range_eq_range']
    exact hrange ▸ hperm.map Prod.snd
  · rw [latestFirst, map_map, pairwise_map]
    refine (pairwise_insertionSort latestLe keys.zipIdx).imp_of_mem fun {a b} ha hb hle => ?_
    have hkey : ∀ entry ∈ keys.zipIdx.insertionSort latestLe, keys.getD entry.2 0 = entry.1 := by
      intro entry hentry
      have hget := mk_mem_zipIdx_iff_getElem?.mp (hperm.mem_iff.mp hentry)
      rw [getD_eq_getElem?_getD, hget]
      rfl
    simp only [Function.comp_apply, hkey a ha, hkey b hb]
    unfold latestLe at hle
    omega

/-- Two requests, of which one token each survives. -/
def oneEach : Batch Nat Nat where
  queryLens := [2, 1]
  pages := [[5], [6]]
  lastPageLen := [2, 1]
  slotMapping := [50, 51, 60]
  logitsIndices := [1, 2]
  length_pages := rfl
  length_lastPageLen := rfl
  le_length_slotMapping := le_rfl
  increasing := by decide
  in_batch := by decide

theorem keeps_oneEach : Sorts latestFirst ∧ oneEach.Keeps latestFirst :=
  ⟨sorts_latestFirst, (Batch.keeps_iff sorts_latestFirst oneEach).mpr (by decide)⟩

/-- A request of which two tokens survive. -/
def twoOfOne : Batch Nat Nat where
  queryLens := [2]
  pages := [[5]]
  lastPageLen := [2]
  slotMapping := [50, 51]
  logitsIndices := [0, 1]
  length_pages := rfl
  length_lastPageLen := rfl
  le_length_slotMapping := le_rfl
  increasing := by decide
  in_batch := by decide

/-- The two tokens change places, and are counted as one. -/
theorem twoOfOne_swapped : Sorts latestFirst ∧
    (fixFlashinferMetadata latestFirst twoOfOne.flashinfer twoOfOne.logitsIndices).map
      (fun r => (r.2, r.1.numPrefillTokens)) = some ([1, 0], 1) ∧ ¬ twoOfOne.Keeps latestFirst := by
  have hfix : (fixFlashinferMetadata latestFirst twoOfOne.flashinfer twoOfOne.logitsIndices).map
      (fun r => (r.2, r.1.numPrefillTokens)) = some ([1, 0], 1) := by decide
  refine ⟨sorts_latestFirst, hfix, ?_⟩
  rintro ⟨-, m, tokens, hm, hkeeps, -⟩
  rw [hm] at hfix
  have hcount := hkeeps.numPrefillTokens
  rw [(Prod.mk.inj (Option.some.inj hfix)).2] at hcount
  exact absurd hcount (by decide)

end ArcticPlatform.SwiftKV
