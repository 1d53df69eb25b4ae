import ArcticPlatform.LmHeadMasks.Expand

/-!
# Action masks: payloads from entries

`action_masks_from_entries` interns the sets of entries.  What it returns says the
same as the entries, apart from those with an empty set, which it drops.

Main results:

- Theorem `mem_constraints_toLmHead`: the constraints of a payload are those of
  its entries.
- Theorem `fromEntries_isOk`: entries at distinct positions are accepted.
- Theorem `mem_constraints_fromEntries`: the constraints of a payload that was
  made from entries.
-/

namespace ArcticPlatform.LmHeadMasks

open Dicts Results Slices Tensors List

/-! ## Constraints of LM head masks -/

/-- The constrained positions of LM head masks with their sets. -/
def LmHeadActionMasks.items (lm : LmHeadActionMasks) : List ActionMaskEntry :=
  (lm.sourcePositions.zip lm.setIndices).map fun p =>
    ⟨p.1, lm.setModesAllow.getD p.2.toNat false,
      sliceInt lm.tokenIds (lm.setOffsets.getD p.2.toNat 0) (lm.setOffsets.getD (p.2 + 1).toNat 0)⟩

/-- A constraint: a source position, whether its tokens are the allowed ones, and the tokens. -/
abbrev Constraint := Int × Bool × Finset Int

/-- The constraint of an entry whose position is a source position. -/
def ActionMaskEntry.constraint (e : ActionMaskEntry) : Constraint :=
  (e.position, e.modeAllow, e.ids.toFinset)

/-- The constraints of LM head masks. -/
def constraints (lm : Option LmHeadActionMasks) : List Constraint :=
  (lm.map fun lm => lm.items.map ActionMaskEntry.constraint).getD []

theorem items_lmHeadOf (m : ActionMasks) (pairs : ExpandedPairs) :
    (lmHeadOf m pairs).items = sourceItems m := by
  simp only [LmHeadActionMasks.items, lmHeadOf, zip_map', map_map, sourceItems]
  rfl

/-! ## Entries of a payload -/

section Entries

variable {m : ActionMasks}

theorem setAt_eq {i : Int} (h : Normalized m) (hi : 0 ≤ i) (hlt : i.toNat < m.setModesAllow.length) :
    item? m.setModesAllow i = some (setAt m i).1 ∧
      item? (internedTokenIdSets m) i = some (setAt m i).2 := by
  have hcount := h.count
  have hsucc : (i + 1).toNat = i.toNat + 1 := by omega
  constructor
  · rw [item?, if_pos hi, setAt, getD_eq_getElem?_getD, getElem?_eq_getElem hlt]
    rfl
  · have hstart : i.toNat < m.setOffsets.length := by omega
    have hstop : i.toNat + 1 < m.setOffsets.length := by omega
    have hzip : i.toNat < (m.setOffsets.dropLast.zip m.setOffsets.tail).length := by
      rw [length_zip, length_dropLast, length_tail]
      omega
    rw [item?, if_pos hi, internedTokenIdSets, getElem?_map, getElem?_eq_getElem hzip,
      getElem_zip, getElem_dropLast, getElem_tail, setAt, hsucc]
    simp only [getD_eq_getElem?_getD, getElem?_eq_getElem hstart, getElem?_eq_getElem hstop]
    rfl

variable {p : Int × Int}

theorem entryAt_eq (h : Normalized m) (hi : 0 ≤ p.2) (hlt : p.2.toNat < m.setModesAllow.length) :
    entryAt m p = .ok ⟨p.1, (setAt m p.2).1, (setAt m p.2).2⟩ := by
  obtain ⟨hmode, hset⟩ := setAt_eq h hi hlt
  rw [entryAt, hmode, hset]

theorem entryAt_position {e : ActionMaskEntry} (h : entryAt m p = .ok e) : e.position = p.1 := by
  unfold entryAt at h
  split at h
  · cases h
    rfl
  · cases h

theorem entryAt_ids {e : ActionMaskEntry} (h : entryAt m p = .ok e) :
    ∀ t ∈ e.ids, t ∈ m.tokenIds := by
  unfold entryAt at h
  split at h
  · rename_i mode ids _ hids
    cases h
    have hmem : ids ∈ internedTokenIdSets m := by
      unfold item? at hids
      split_ifs at hids
      · exact mem_of_getElem? hids
      · exact mem_of_getElem? hids
    obtain ⟨q, -, rfl⟩ := mem_map.mp hmem
    intro t ht
    exact mem_of_mem_take (mem_of_mem_drop ht)
  · cases h

variable {es : List ActionMaskEntry}

section

variable (h : actionMaskEntries (some m) = .ok es)
include h

theorem entries_eq_ok :
    Normalized m ∧ Forall₂ (fun p e => entryAt m p = .ok e) (m.positions.zip m.setIndices) es := by
  obtain ⟨r, hr, h⟩ := bind_eq_ok.mp h
  obtain ⟨hm, rfl⟩ := normalize_eq_ok.mp hr
  exact ⟨hm, mapM_eq_ok.mp h⟩

theorem entries_positions : es.map (·.position) = m.positions := by
  obtain ⟨hm, hes⟩ := entries_eq_ok h
  rw [← map_fst_zip (le_of_eq hm.indices)]
  symm
  rw [← forall₂_eq_eq_eq, forall₂_map_left_iff, forall₂_map_right_iff]
  exact hes.imp fun p e he => (entryAt_position he).symm

theorem entries_sorted : es.Pairwise fun a b => a.position < b.position := by
  have := (entries_eq_ok h).1.sorted
  rw [← entries_positions h, pairwise_map] at this
  exact this

theorem entries_tokens : ∀ e ∈ es, ∀ t ∈ e.ids, 0 ≤ t ∧ t < m.vocabSize := by
  obtain ⟨hm, hes⟩ := entries_eq_ok h
  intro e he t ht
  obtain ⟨i, hi, rfl⟩ := getElem_of_mem he
  exact hm.tokens t (entryAt_ids (hes.get (hes.length_eq ▸ hi) hi) t ht)

end

/-- Entries moved to the positions before them, without those that have none. -/
def beforeTargets (es : List ActionMaskEntry) : List ActionMaskEntry :=
  (es.filter fun e => 0 ≤ e.position - 1).map fun e => { e with position := e.position - 1 }

theorem sourceItems_of
    (h : Forall₂ (fun p e => p.1 = e.position ∧
      (p ∈ keptPairs m → setAt m p.2 = (e.modeAllow, e.ids))) (m.positions.zip m.setIndices) es) :
    sourceItems m = beforeTargets es := by
  have hmem : ∀ p : Int × Int, p ∈ m.positions.zip m.setIndices → 0 ≤ p.1 - 1 → p ∈ keptPairs m :=
    fun p hp hkept => mem_filter.mpr ⟨hp, by simpa using hkept⟩
  unfold sourceItems beforeTargets
  rw [keptPairs]
  generalize m.positions.zip m.setIndices = pairs at h hmem
  induction h with
  | nil => rfl
  | @cons p e pairs es hp hes ih =>
    have ih := ih fun q hq => hmem q (mem_cons_of_mem _ hq)
    by_cases hkept : 0 ≤ p.1 - 1
    · have hset := hp.2 (hmem p mem_cons_self hkept)
      rw [filter_cons_of_pos (by simpa using hkept),
        filter_cons_of_pos (by simpa [← hp.1] using hkept), map_cons, map_cons, ih, hset, hp.1]
    · rw [filter_cons_of_neg (by simpa using hkept),
        filter_cons_of_neg (by simpa [← hp.1] using hkept), ih]

/-- The constraints of a payload are those of its entries that have a position before them. -/
theorem sourceItems_eq (h : actionMaskEntries (some m) = .ok es)
    (hindex : ∀ p ∈ keptPairs m, 0 ≤ p.2 ∧ p.2.toNat < m.setModesAllow.length) :
    sourceItems m = beforeTargets es := by
  obtain ⟨hm, hes⟩ := entries_eq_ok h
  apply sourceItems_of
  apply hes.imp
  intro p e hp
  refine ⟨(entryAt_position hp).symm, ?_⟩
  intro hkept
  have hset := hindex p hkept
  rw [entryAt_eq hm hset.1 hset.2] at hp
  cases hp
  rfl

end Entries

/-! ## Interned sets -/

/-- The entries with a set that is not empty. -/
def withTokens (es : List ActionMaskEntry) : List ActionMaskEntry := es.filter fun e => e.ids ≠ []

/-- The set that is interned for an entry. -/
def ActionMaskEntry.key (e : ActionMaskEntry) : Bool × List Int :=
  (e.modeAllow, e.ids.insertionSort (· ≤ ·))

/-- An index refers to the set of an entry. -/
def RefersTo (sets : List (Bool × List Int)) (e : ActionMaskEntry) (i : Int) : Prop :=
  0 ≤ i ∧ sets[i.toNat]? = some e.key

/-- What holds after entries have been interned as sets. -/
structure Interned (es : List ActionMaskEntry) (s : Interning) (sets : List (Bool × List Int)) :
    Prop where
  modes : s.setModesAllow = sets.map Prod.fst
  tokens : s.tokenIds = (sets.map Prod.snd).flatten
  offsets : s.setOffsets = (cumulative ((sets.map Prod.snd).map List.length)).map Int.ofNat
  keys : ∀ k i, s.setKeys.get? k = some i → sets[i]? = some k
  positions : s.positions = (withTokens es).map (·.position)
  indices : Forall₂ (RefersTo sets) (withTokens es) s.setIndices
  source : ∀ k ∈ sets, ∃ e ∈ withTokens es, k = e.key

theorem interned_init : Interned [] .init [] where
  modes := rfl
  tokens := rfl
  offsets := rfl
  keys := by simp [Interning.init]
  positions := rfl
  indices := Forall₂.nil
  source := by simp

theorem insertionSort_eq_nil {ids : List Int} : ids.insertionSort (· ≤ ·) = [] ↔ ids = [] := by
  rw [← length_eq_zero_iff, length_insertionSort, length_eq_zero_iff]

theorem withTokens_concat (es : List ActionMaskEntry) (e : ActionMaskEntry) :
    withTokens (es ++ [e]) = if e.ids = [] then withTokens es else withTokens es ++ [e] := by
  unfold withTokens
  rw [filter_append]
  by_cases h : e.ids = []
  · rw [if_pos h, filter_cons_of_neg (by simpa using h), filter_nil, append_nil]
  · rw [if_neg h, filter_cons_of_pos (by simpa using h), filter_nil]

theorem refersTo_append {sets : List (Bool × List Int)} {e : ActionMaskEntry} {i : Int}
    (h : RefersTo sets e i) (more : List (Bool × List Int)) : RefersTo (sets ++ more) e i := by
  refine ⟨h.1, ?_⟩
  rw [getElem?_append_left (List.getElem?_eq_some_iff.mp h.2).1]
  exact h.2

/-- Interning one entry. -/
theorem interned_add {es : List ActionMaskEntry} {s : Interning} {sets : List (Bool × List Int)}
    (h : Interned es s sets) (e : ActionMaskEntry) :
    ∃ sets', Interned (es ++ [e]) (s.add e) sets' := by
  rw [Interning.add]
  dsimp only
  simp only [insertionSort_eq_nil]
  split_ifs with hids
  · -- An empty set: nothing changes.
    have hes : withTokens (es ++ [e]) = withTokens es := by rw [withTokens_concat, if_pos hids]
    exact ⟨sets, h.modes, h.tokens, h.offsets, h.keys, by rw [hes]; exact h.positions,
      by rw [hes]; exact h.indices, by rw [hes]; exact h.source⟩
  have hes : withTokens (es ++ [e]) = withTokens es ++ [e] := by rw [withTokens_concat, if_neg hids]
  have hsource : ∀ k ∈ sets, ∃ e' ∈ withTokens (es ++ [e]), k = e'.key := by
    intro k hk
    obtain ⟨e', he', rfl⟩ := h.source k hk
    rw [hes]
    exact ⟨e', mem_append_left _ he', rfl⟩
  split
  · -- The set is interned already.
    rename_i i hi
    refine ⟨sets, h.modes, h.tokens, h.offsets, h.keys, ?_, ?_, hsource⟩
    · rw [hes, map_append, h.positions]
      rfl
    · rw [hes]
      exact rel_append h.indices (.cons ⟨Int.natCast_nonneg i, h.keys _ _ hi⟩ .nil)
  · -- A new set.
    refine ⟨sets ++ [e.key], ?_, ?_, ?_, ?_, ?_, ?_, ?_⟩
    · rw [map_append, h.modes]
      rfl
    · rw [map_append, flatten_append, h.tokens]
      simp [ActionMaskEntry.key]
    · have hsum : ((sets.map Prod.snd).map List.length).sum = s.tokenIds.length := by
        rw [h.tokens, List.length_flatten]
      have hcumulative : ∀ (lengths : List Nat) (n : Nat),
          cumulative (lengths ++ [n]) = cumulative lengths ++ [lengths.sum + n] := by
        intro lengths n
        rw [cumulative, scanl_append, ← sum_eq_foldl]
        rfl
      simp only [map_append, map_cons, map_nil, hcumulative, hsum, h.offsets, length_append]
      rfl
    · intro k i hi
      rw [Dict.get?_set] at hi
      split_ifs at hi with hk
      · cases hi
        rw [hk, h.modes, length_map, getElem?_concat_length]
        rfl
      · have := h.keys k i hi
        rw [getElem?_append_left (List.getElem?_eq_some_iff.mp this).1, this]
    · rw [hes, map_append, h.positions]
      rfl
    · rw [hes]
      apply rel_append (h.indices.imp fun e' i hi => refersTo_append hi _)
      apply Forall₂.cons _ .nil
      refine ⟨Int.natCast_nonneg _, ?_⟩
      rw [Int.toNat_natCast, h.modes, length_map, getElem?_concat_length]
    · intro k hk
      rcases mem_append.mp hk with hk | hk
      · exact hsource k hk
      · rw [mem_singleton.mp hk, hes]
        exact ⟨e, by simp, rfl⟩

theorem interned_foldl (es : List ActionMaskEntry) :
    ∃ sets, Interned es (es.foldl Interning.add .init) sets := by
  induction es using reverseRecOn with
  | nil => exact ⟨[], interned_init⟩
  | append_singleton es e ih =>
    obtain ⟨sets, h⟩ := ih
    rw [foldl_concat]
    exact interned_add h e

/-! ## Payloads from entries -/

/-- The payload of interned entries. -/
def Interning.payload (s : Interning) (seqLen vocabSize : Int) : ActionMasks :=
  { s with seqLen, vocabSize }

section Interned

variable {es : List ActionMaskEntry} {s : Interning} {sets : List (Bool × List Int)}

section

variable (h : Interned es s sets)
include h

theorem Interned.offset_getD {k : Nat} (hk : k ≤ sets.length) :
    s.setOffsets.getD k 0 = (((sets.map Prod.snd).map List.length).take k).sum := by
  rw [h.offsets, getD_eq_getElem?_getD, getElem?_map, cumulative_getElem? (by simpa using hk)]
  rfl

theorem Interned.offset_le {k : Nat} (hk : k ≤ sets.length) :
    s.setOffsets.getD k 0 ≤ s.tokenIds.length := by
  rw [h.offset_getD hk, h.tokens, List.length_flatten, Int.ofNat_le]
  exact (take_sublist _ _).sum_le_sum (by simp)

theorem Interned.setAt_eq {e : ActionMaskEntry} {i : Int}
    (hi : RefersTo sets e i) (seqLen vocabSize : Int) :
    setAt (s.payload seqLen vocabSize) i = e.key := by
  obtain ⟨hnonneg, hset⟩ := hi
  obtain ⟨hlt, -⟩ := List.getElem?_eq_some_iff.mp hset
  have hsucc : (i + 1).toNat = i.toNat + 1 := by omega
  have hblock : (sets.map Prod.snd)[i.toNat]? = some e.key.2 := by rw [getElem?_map, hset]; rfl
  have hslice := slice_flatten hblock
  rw [← h.tokens] at hslice
  have hstop := h.offset_le (k := i.toNat + 1) hlt
  rw [h.offset_getD hlt] at hstop
  have hmode : s.setModesAllow.getD i.toNat false = e.key.1 := by
    rw [h.modes, getD_eq_getElem?_getD, getElem?_map, hset]
    rfl
  rw [setAt]
  simp only [Interning.payload]
  rw [hmode, hsucc, h.offset_getD hlt.le, h.offset_getD hlt, sliceInt_natCast (Int.ofNat_le.mp hstop),
    hslice]

/-- The entries whose sets are sorted. -/
def sortIds (e : ActionMaskEntry) : ActionMaskEntry :=
  { e with ids := e.ids.insertionSort (· ≤ ·) }

/-- The positions and set indices of a payload, beside the entries that they stand for. -/
theorem Interned.pairs :
    Forall₂ (fun p e => p.1 = e.position ∧ RefersTo sets e p.2)
      (s.positions.zip s.setIndices) (withTokens es) := by
  rw [h.positions]
  have hindices := h.indices
  generalize withTokens es = entries at hindices
  generalize s.setIndices = indices at hindices
  induction hindices with
  | nil => exact Forall₂.nil
  | cons hi _ ih => exact Forall₂.cons ⟨rfl, hi⟩ ih

theorem Interned.sourceItems_payload (seqLen vocabSize : Int) :
    sourceItems (s.payload seqLen vocabSize) = beforeTargets ((withTokens es).map sortIds) := by
  apply sourceItems_of
  rw [forall₂_map_right_iff]
  apply h.pairs.imp
  intro p e hp
  exact ⟨hp.1, fun _ => h.setAt_eq hp.2 seqLen vocabSize⟩

theorem Interned.index_lt (seqLen vocabSize : Int) :
    ∀ p ∈ keptPairs (s.payload seqLen vocabSize), 0 ≤ p.2 ∧ p.2.toNat < sets.length := by
  intro p hp
  have hp : p.2 ∈ s.setIndices := (of_mem_zip (mem_of_mem_filter hp)).2
  obtain ⟨k, hk, hi⟩ := getElem_of_mem hp
  have hrefers := h.indices.get (h.indices.length_eq ▸ hk) hk
  simp only [get_eq_getElem, hi] at hrefers
  exact ⟨hrefers.1, (List.getElem?_eq_some_iff.mp hrefers.2).1⟩

theorem Interned.expand_payload (seqLen vocabSize : Int) :
    let m := s.payload seqLen vocabSize
    ∃ pairs, expandLmHeadActionMaskPairs ((keptPairs m).map (·.1 - 1)) ((keptPairs m).map (·.2))
      m.setModesAllow m.setOffsets m.tokenIds = .ok pairs := by
  intro m
  have hmodes : m.setModesAllow.length = sets.length := by
    simp only [m, Interning.payload, h.modes, length_map]
  apply expand_isOk
  · simp only [m, Interning.payload, h.modes, h.offsets, length_map, length_cumulative]
  · rw [hmodes]
    exact h.index_lt seqLen vocabSize
  · intro p hp
    obtain ⟨hnonneg, hlt⟩ := h.index_lt seqLen vocabSize p hp
    have hsucc : (p.2 + 1).toNat = p.2.toNat + 1 := by omega
    have hstart := h.offset_getD hlt.le
    have hstop := h.offset_getD (k := p.2.toNat + 1) hlt
    have hlength : 0 ≤ setLength m p := by
      simp only [setLength, m, Interning.payload]
      rw [hsucc, hstart, hstop, sub_nonneg, Int.ofNat_le]
      apply Sublist.sum_le_sum _ (by simp)
      exact take_sublist_take_left (Nat.le_succ _)
    refine ⟨?_, hlength, ?_⟩
    · simp only [m, Interning.payload]
      rw [hstart]
      exact Int.natCast_nonneg _
    · simp only [m, Interning.payload]
      rw [hsucc]
      exact h.offset_le hlt

theorem Interned.normalized {seqLen vocabSize : Int}
    (hsorted : (withTokens es).Pairwise fun a b => a.position < b.position)
    (hseqLen : ∀ e ∈ withTokens es, e.position < seqLen)
    (htokens : ∀ e ∈ withTokens es, ∀ t ∈ e.ids, 0 ≤ t ∧ t < vocabSize) :
    Normalized (s.payload seqLen vocabSize) where
  indices := by
    simp only [Interning.payload, h.positions, length_map]
    exact h.indices.length_eq
  count := by simp only [Interning.payload, h.modes, h.offsets, length_map, length_cumulative]
  start := by
    simp only [Interning.payload, h.offsets, head?_map, cumulative, head?_scanl]
    rfl
  last := by
    simp only [Interning.payload, h.offsets, getLast?_map, cumulative, getLast?_scanl,
      h.tokens, List.length_flatten, sum_eq_foldl]
    rfl
  sorted := by
    simp only [Interning.payload, h.positions, pairwise_map]
    exact hsorted
  seqLen := by
    intro p hp
    simp only [Interning.payload, h.positions] at hp
    obtain ⟨e, he, rfl⟩ := mem_map.mp hp
    exact hseqLen e he
  tokens := by
    intro t ht
    simp only [Interning.payload, h.tokens] at ht
    obtain ⟨ids, hids, ht⟩ := mem_flatten.mp ht
    obtain ⟨k, hk, rfl⟩ := mem_map.mp hids
    obtain ⟨e, he, rfl⟩ := h.source k hk
    exact htokens e he t ((mem_insertionSort _).mp ht)

end

end Interned

section FromEntries

variable {seqLen vocabSize : Int} {entries : List ActionMaskEntry}

theorem byPosition_perm (entries : List ActionMaskEntry) : (byPosition entries).Perm entries :=
  perm_insertionSort _ _

theorem withTokens_byPosition (entries : List ActionMaskEntry) :
    (withTokens (byPosition entries)).Perm (withTokens entries) :=
  (byPosition_perm entries).filter _

theorem withTokens_sorted (h : ((withTokens entries).map (·.position)).Nodup) :
    (withTokens (byPosition entries)).Pairwise fun a b => a.position < b.position := by
  have hle : (byPosition entries).Pairwise fun a b => a.position ≤ b.position := by
    have htotal : Std.Total fun a b : ActionMaskEntry => a.position ≤ b.position :=
      ⟨fun a b => le_total a.position b.position⟩
    have htrans : IsTrans ActionMaskEntry fun a b => a.position ≤ b.position :=
      ⟨fun _ _ _ hab hbc => le_trans hab hbc⟩
    exact pairwise_insertionSort _ _
  have hne : (withTokens (byPosition entries)).Pairwise fun a b => a.position ≠ b.position := by
    rw [← pairwise_map]
    exact ((withTokens_byPosition entries).map _).nodup_iff.mpr h
  exact (hle.sublist filter_sublist).imp₂ (fun a b hab hne => lt_of_le_of_ne hab hne) hne

theorem fromEntries_eq (seqLen vocabSize : Int) (entries : List ActionMaskEntry) :
    actionMasksFromEntries seqLen vocabSize entries =
      if withTokens (byPosition entries) = [] then .ok none
      else normalizeActionMasks (some
        (((byPosition entries).foldl Interning.add .init).payload seqLen vocabSize)) := by
  obtain ⟨sets, h⟩ := interned_foldl (byPosition entries)
  have hnil : ((byPosition entries).foldl Interning.add .init).positions = [] ↔
      withTokens (byPosition entries) = [] := by
    rw [h.positions, map_eq_nil_iff]
  simp only [actionMasksFromEntries, hnil]
  rfl

/-- Entries at distinct positions of the sequence, with tokens of the vocabulary, are accepted. -/
theorem fromEntries_isOk (hnodup : ((withTokens entries).map (·.position)).Nodup)
    (hseqLen : ∀ e ∈ withTokens entries, e.position < seqLen)
    (htokens : ∀ e ∈ withTokens entries, ∀ t ∈ e.ids, 0 ≤ t ∧ t < vocabSize) :
    ∃ r lm, actionMasksFromEntries seqLen vocabSize entries = .ok r ∧
      actionMasksToLmHead r = .ok lm := by
  obtain ⟨sets, h⟩ := interned_foldl (byPosition entries)
  have hmem : ∀ e ∈ withTokens (byPosition entries), e ∈ withTokens entries :=
    fun e he => (withTokens_byPosition entries).mem_iff.mp he
  have hnormalized := h.normalized (withTokens_sorted hnodup) (fun e he => hseqLen e (hmem e he))
    fun e he => htokens e (hmem e he)
  obtain ⟨pairs, hpairs⟩ := h.expand_payload seqLen vocabSize
  rw [fromEntries_eq]
  split_ifs with hnil
  · exact ⟨none, none, rfl, rfl⟩
  · exact ⟨_, _, normalize_eq_ok.mpr ⟨hnormalized, rfl⟩,
      toLmHead_eq_ok.mpr ⟨hnormalized, pairs, hpairs, rfl⟩⟩

theorem fromEntries_nodup {r : Option ActionMasks}
    (hr : actionMasksFromEntries seqLen vocabSize entries = .ok r) :
    ((withTokens entries).map (·.position)).Nodup := by
  obtain ⟨sets, h⟩ := interned_foldl (byPosition entries)
  rw [((withTokens_byPosition entries).map _).nodup_iff.symm]
  rw [fromEntries_eq] at hr
  split_ifs at hr with hnil
  · rw [hnil]
    exact nodup_nil
  · have hsorted := (normalize_eq_ok.mp hr).1.sorted
    simp only [Interning.payload, h.positions] at hsorted
    exact hsorted.imp fun hab => ne_of_lt hab

/-- The constraints of a payload that was made from entries. -/
theorem mem_constraints_fromEntries {r : Option ActionMasks} {lm : Option LmHeadActionMasks}
    (hr : actionMasksFromEntries seqLen vocabSize entries = .ok r)
    (hlm : actionMasksToLmHead r = .ok lm) (c : Constraint) :
    c ∈ constraints lm ↔ ∃ e ∈ entries, e.ids ≠ [] ∧ 1 ≤ e.position ∧
      c = (e.position - 1, e.modeAllow, e.ids.toFinset) := by
  obtain ⟨sets, h⟩ := interned_foldl (byPosition entries)
  have hmem : ∀ e, e ∈ withTokens (byPosition entries) ↔ e ∈ entries ∧ e.ids ≠ [] := by
    intro e
    rw [(withTokens_byPosition entries).mem_iff, withTokens, mem_filter, decide_eq_true_iff]
  have hitems : constraints lm = (beforeTargets ((withTokens (byPosition entries)).map sortIds)).map
      ActionMaskEntry.constraint := by
    rw [fromEntries_eq] at hr
    split_ifs at hr with hnil
    · cases hr
      cases hlm
      rw [hnil]
      rfl
    · obtain ⟨-, rfl⟩ := normalize_eq_ok.mp hr
      obtain ⟨-, pairs, -, rfl⟩ := toLmHead_eq_ok.mp hlm
      rw [constraints, Option.map_some, Option.getD_some, items_lmHeadOf, h.sourceItems_payload]
  have hids : ∀ ids : List Int, (ids.insertionSort (· ≤ ·)).toFinset = ids.toFinset :=
    fun ids => toFinset_eq_of_perm _ _ (perm_insertionSort _ _)
  rw [hitems]
  simp only [beforeTargets, mem_map, mem_filter, decide_eq_true_iff]
  constructor
  · rintro ⟨_, ⟨_, ⟨⟨e, he, rfl⟩, hkept⟩, rfl⟩, rfl⟩
    obtain ⟨hentry, hne⟩ := (hmem e).mp he
    simp only [sortIds] at hkept
    exact ⟨e, hentry, hne, by omega, by simp [ActionMaskEntry.constraint, sortIds, hids]⟩
  · rintro ⟨e, he, hne, hkept, rfl⟩
    refine ⟨_, ⟨sortIds e, ⟨⟨e, (hmem e).mpr ⟨he, hne⟩, rfl⟩, ?_⟩, rfl⟩, ?_⟩
    · simp only [sortIds]
      omega
    · simp [ActionMaskEntry.constraint, sortIds, hids]

end FromEntries

/-- The constraints of a payload are those of its entries. -/
theorem mem_constraints_toLmHead {m : ActionMasks} {es : List ActionMaskEntry}
    {lm : Option LmHeadActionMasks} (hes : actionMaskEntries (some m) = .ok es)
    (hlm : actionMasksToLmHead (some m) = .ok lm) (c : Constraint) :
    c ∈ constraints lm ↔ ∃ e ∈ es, 1 ≤ e.position ∧
      c = (e.position - 1, e.modeAllow, e.ids.toFinset) := by
  obtain ⟨-, _, -, -, -, -, hindex⟩ := represents_toLmHead hlm
  obtain ⟨-, pairs, -, rfl⟩ := toLmHead_eq_ok.mp hlm
  rw [constraints, Option.map_some, Option.getD_some, items_lmHeadOf, sourceItems_eq hes hindex]
  simp only [beforeTargets, mem_map, mem_filter, decide_eq_true_iff]
  constructor
  · rintro ⟨_, ⟨e, ⟨he, hkept⟩, rfl⟩, rfl⟩
    exact ⟨e, he, by omega, rfl⟩
  · rintro ⟨e, he, hkept, rfl⟩
    exact ⟨_, ⟨e, ⟨he, by omega⟩, rfl⟩, rfl⟩

end ArcticPlatform.LmHeadMasks
