import ArcticPlatform.LmHeadMasks.Model

/-!
# Action masks: what the LM head masks say

`action_masks_to_lm_head` moves the constraints from targets to the positions
before them, and expands the sets into pairs of a position and a token.

Main results:

- Theorem `represents_toLmHead`: the arrays of the LM head masks list the
  constraints of the payload.
-/

namespace ArcticPlatform.LmHeadMasks

open Results Slices Tensors List Function

/-! ## Checked payloads -/

/-- What `normalize_action_masks` checks. -/
structure Normalized (m : ActionMasks) : Prop where
  indices : m.positions.length = m.setIndices.length
  count : m.setOffsets.length = m.setModesAllow.length + 1
  start : m.setOffsets.head? = some 0
  last : m.setOffsets.getLast? = some (m.tokenIds.length : Int)
  sorted : m.positions.Pairwise (· < ·)
  seqLen : ∀ p ∈ m.positions, p < m.seqLen
  tokens : ∀ t ∈ m.tokenIds, 0 ≤ t ∧ t < m.vocabSize

theorem getLast?_lt_of_pairwise {l : List Int} (hl : l.Pairwise (· < ·)) {b : Int} :
    (¬ l.getLast?.any (b ≤ ·)) ↔ ∀ p ∈ l, p < b := by
  cases hlast : l.getLast? with
  | none =>
    rw [getLast?_eq_none_iff] at hlast
    simp [hlast]
  | some x =>
    obtain ⟨front, rfl⟩ := getLast?_eq_some_iff.mp hlast
    rw [pairwise_append] at hl
    simp only [Option.any_some, decide_eq_true_eq, not_le]
    constructor
    · intro hx p hp
      rcases mem_append.mp hp with hp | hp
      · exact lt_trans (hl.2.2 p hp x (by simp)) hx
      · rw [mem_singleton.mp hp]
        exact hx
    · exact fun h => h x (by simp)

variable {m : ActionMasks}

theorem normalize_eq_ok {r : Option ActionMasks} :
    normalizeActionMasks (some m) = .ok r ↔ Normalized m ∧ r = some m := by
  have hhead : ∀ l : List Int, l ≠ [] → ∀ x : Int, ((¬ l.head?.any (· ≠ x)) ↔ l.head? = some x) := by
    intro l hl x
    cases l with
    | nil => exact absurd rfl hl
    | cons a l => simp
  have hlast : ∀ l : List Int, l ≠ [] → ∀ x : Int,
      ((¬ l.getLast?.any (· ≠ x)) ↔ l.getLast? = some x) := by
    intro l hl x
    cases h : l.getLast? with
    | none => exact absurd (getLast?_eq_none_iff.mp h) hl
    | some a => simp
  have htokens : (¬ (m.tokenIds.any fun t => t < 0 ∨ m.vocabSize ≤ t)) ↔
      ∀ t ∈ m.tokenIds, 0 ≤ t ∧ t < m.vocabSize := by
    simp only [any_eq_true, decide_eq_true_eq, not_exists, not_and, not_or, not_lt, not_le]
  constructor
  · intro h
    rw [normalizeActionMasks] at h
    split_ifs at h with h₁ h₂ h₃ h₄ h₅ h₆ h₇
    have hne : m.setOffsets ≠ [] := by
      intro hnil
      rw [hnil] at h₂
      simp at h₂
    exact ⟨⟨not_not.mp h₁, not_not.mp h₂, (hhead _ hne 0).mp h₃, (hlast _ hne _).mp h₄, h₅,
      (getLast?_lt_of_pairwise h₅).mp h₆, htokens.mp h₇⟩, (Except.ok.inj h).symm⟩
  · rintro ⟨h, rfl⟩
    have hne : m.setOffsets ≠ [] := by
      intro hnil
      have := h.count
      rw [hnil] at this
      simp at this
    have hindices : ¬ m.positions.length ≠ m.setIndices.length := not_not.mpr h.indices
    have hcount : ¬ m.setOffsets.length ≠ m.setModesAllow.length + 1 := not_not.mpr h.count
    rw [normalizeActionMasks, if_neg hindices, if_neg hcount,
      if_neg ((hhead _ hne 0).mpr h.start), if_neg ((hlast _ hne _).mpr h.last),
      if_neg (not_not.mpr h.sorted), if_neg ((getLast?_lt_of_pairwise h.sorted).mpr h.seqLen),
      if_neg (htokens.mpr h.tokens)]

/-! ## Constraints -/

/-- The set with an index. -/
def setAt (m : ActionMasks) (i : Int) : Bool × List Int :=
  (m.setModesAllow.getD i.toNat false,
    sliceInt m.tokenIds (m.setOffsets.getD i.toNat 0) (m.setOffsets.getD (i + 1).toNat 0))

/-- The positions of a payload with their set indices, without targets that have no position
before them. -/
def keptPairs (m : ActionMasks) : List (Int × Int) :=
  (m.positions.zip m.setIndices).filter fun p => 0 ≤ p.1 - 1

/-- The constraints of a payload on source positions. -/
def sourceItems (m : ActionMasks) : List ActionMaskEntry :=
  (keptPairs m).map fun p => ⟨p.1 - 1, (setAt m p.2).1, (setAt m p.2).2⟩

/-- The pairs of a position and a token of its set. -/
def pairsOf (items : List ActionMaskEntry) : List (Int × Int) :=
  items.flatMap fun e => e.ids.map (Prod.mk e.position)

/-- The arrays of LM head masks list constraints. -/
structure Represents (lm : LmHeadActionMasks) (items : List ActionMaskEntry) : Prop where
  sources : lm.sourcePositions = items.map (·.position)
  allow : lm.allowSourcePositions = (items.filter (·.modeAllow)).map (·.position)
  allowPairSources : lm.allowPairSourcePositions =
    (pairsOf (items.filter (·.modeAllow))).map Prod.fst
  allowPairTokens : lm.allowPairTokenIds = (pairsOf (items.filter (·.modeAllow))).map Prod.snd
  denyPairSources : lm.denyPairSourcePositions =
    (pairsOf (items.filter (!·.modeAllow))).map Prod.fst
  denyPairTokens : lm.denyPairTokenIds = (pairsOf (items.filter (!·.modeAllow))).map Prod.snd

theorem pairsOf_fst (items : List ActionMaskEntry) :
    (pairsOf items).map Prod.fst = items.flatMap fun e => replicate e.ids.length e.position := by
  simp only [pairsOf, map_flatMap, map_map, comp_def, map_const']

theorem pairsOf_snd (items : List ActionMaskEntry) :
    (pairsOf items).map Prod.snd = items.flatMap (·.ids) := by
  simp only [pairsOf, map_flatMap, map_map, comp_def, map_id']

section Expand

variable {m : ActionMasks}

/-- The length of the set of a position. -/
def setLength (m : ActionMasks) (p : Int × Int) : Int :=
  m.setOffsets.getD (p.2 + 1).toNat 0 - m.setOffsets.getD p.2.toNat 0

variable {kept : List (Int × Int)}

theorem setAt_of_select {tokens : List Int} (hnonneg : ∀ p ∈ kept, 0 ≤ setLength m p)
    (h : indexSelect m.tokenIds (kept.flatMap fun p =>
      (arange (setLength m p).toNat).map (m.setOffsets.getD p.2.toNat 0 + ·)) = .ok tokens) :
    (∀ p ∈ kept, (setAt m p.2).2.length = (setLength m p).toNat) ∧
      tokens = kept.flatMap fun p => (setAt m p.2).2 := by
  rw [← map_id (kept.flatMap fun p => _)] at h
  obtain ⟨htokens, hrange⟩ := indexSelect_map 0 h
  have hslice : ∀ p ∈ kept, (setAt m p.2).2 = (arange (setLength m p).toNat).map fun k =>
      m.tokenIds.getD (m.setOffsets.getD p.2.toNat 0 + k).toNat 0 := by
    intro p hp
    have hstop : m.setOffsets.getD (p.2 + 1).toNat 0 =
        m.setOffsets.getD p.2.toNat 0 + ((setLength m p).toNat : Int) := by
      rw [Int.toNat_of_nonneg (hnonneg p hp), setLength]
      omega
    rw [setAt, hstop, map_arange_getD]
    intro k hk
    apply hrange
    rw [mem_flatMap]
    exact ⟨p, hp, mem_map.mpr ⟨k, by simpa [arange] using hk, rfl⟩⟩
  constructor
  · intro p hp
    rw [hslice p hp]
    simp [arange]
  · rw [htokens, map_flatMap]
    apply flatMap_congr
    intro p hp
    rw [hslice p hp, map_map]
    rfl

theorem setLengths_eq (m : ActionMasks) (kept : List (Int × Int)) :
    zipWith (· - ·) (kept.map fun p => m.setOffsets.getD (p.2 + 1).toNat 0)
      (kept.map fun p => m.setOffsets.getD p.2.toNat 0) = kept.map (setLength m) := by
  rw [zipWith_map, zipWith_self]
  rfl

theorem pairGroupStarts_eq (hnonneg : ∀ p ∈ kept, 0 ≤ setLength m p) :
    repeatInterleave (zipWith (· - ·) (cumsum (kept.map (setLength m))) (kept.map (setLength m)))
        (kept.map (setLength m)) =
      .ok (groupStarts 0 (kept.map fun p => (setLength m p).toNat)) := by
  have hany : (kept.map (setLength m)).any (· < 0) = false := by
    rw [any_eq_false]
    intro k hk
    obtain ⟨p, hp, rfl⟩ := mem_map.mp hk
    simpa using hnonneg p hp
  rw [repeatInterleave, hany, cumsum, if_neg Bool.false_ne_true, groupStarts_eq, map_map]
  · rfl
  · intro n hn
    obtain ⟨p, hp, rfl⟩ := mem_map.mp hn
    exact hnonneg p hp

theorem pairIndices_eq (hnonneg : ∀ p ∈ kept, 0 ≤ setLength m p) :
    zipWith (· + ·)
      (kept.flatMap fun p => replicate (setLength m p).toNat (m.setOffsets.getD p.2.toNat 0))
      (zipWith (· - ·) (arange (kept.flatMap fun p =>
          replicate (setLength m p).toNat (p.1 - 1)).length)
        (groupStarts 0 (kept.map fun p => (setLength m p).toNat))) = kept.flatMap fun p =>
        (arange (setLength m p).toNat).map (m.setOffsets.getD p.2.toNat 0 + ·) := by
  rw [length_flatMap_replicate, arange, range_eq_range']
  have := groupOffsets_eq (kept.map fun p => (setLength m p).toNat) 0
  rw [Nat.cast_zero] at this
  rw [this]
  exact groupIndex_eq kept _ _ hnonneg

/-- What the expansion of kept positions returns. -/
theorem expand_eq_ok {pairs : ExpandedPairs}
    (h : expandLmHeadActionMaskPairs (kept.map (·.1 - 1)) (kept.map (·.2)) m.setModesAllow
      m.setOffsets m.tokenIds = .ok pairs) :
    let items : List ActionMaskEntry :=
      kept.map fun p => ⟨p.1 - 1, (setAt m p.2).1, (setAt m p.2).2⟩
    (∀ p ∈ kept, 0 ≤ p.2 ∧ p.2.toNat < m.setModesAllow.length) ∧
    pairs.allowSourcePositions = (items.filter (·.modeAllow)).map (·.position) ∧
    pairs.allowPairSourcePositions = (items.filter (·.modeAllow)).flatMap
      (fun e => replicate e.ids.length e.position) ∧
    pairs.allowPairTokenIds = (items.filter (·.modeAllow)).flatMap (·.ids) ∧
    pairs.denyPairSourcePositions = (items.filter (!·.modeAllow)).flatMap
      (fun e => replicate e.ids.length e.position) ∧
    pairs.denyPairTokenIds = (items.filter (!·.modeAllow)).flatMap (·.ids) := by
  intro items
  unfold expandLmHeadActionMaskPairs at h
  split_ifs at h with hnil
  · cases h
    have hkept : kept = [] := map_eq_nil_iff.mp hnil
    simp [items, hkept]
  obtain ⟨modes, hmodes, h⟩ := bind_eq_ok.mp h
  obtain ⟨starts, hstarts, h⟩ := bind_eq_ok.mp h
  obtain ⟨ends, hends, h⟩ := bind_eq_ok.mp h
  obtain ⟨pairSources, hpairSources, h⟩ := bind_eq_ok.mp h
  obtain ⟨pairStarts, hpairStarts, h⟩ := bind_eq_ok.mp h
  obtain ⟨groups, hgroups, h⟩ := bind_eq_ok.mp h
  obtain ⟨tokens, htokens, h⟩ := bind_eq_ok.mp h
  obtain ⟨pairModes, hpairModes, h⟩ := bind_eq_ok.mp h
  cases h
  obtain ⟨rfl, hindex⟩ := indexSelect_map false hmodes
  obtain ⟨rfl, -⟩ := indexSelect_map 0 hstarts
  rw [map_map] at hends
  obtain ⟨rfl, -⟩ := indexSelect_map 0 hends
  -- Everything is now a function of the kept pairs.
  simp only [comp_def, setLengths_eq] at hpairSources hpairStarts hgroups htokens hpairModes
  have hnonneg : ∀ p ∈ kept, 0 ≤ setLength m p := by
    intro p hp
    exact repeatInterleave_isOk hpairSources _ (mem_map_of_mem hp)
  rw [repeatInterleave_map hnonneg] at hpairSources hpairStarts hpairModes
  cases hpairSources
  cases hpairStarts
  cases hpairModes
  rw [pairGroupStarts_eq hnonneg] at hgroups
  cases hgroups
  rw [pairIndices_eq hnonneg] at htokens
  obtain ⟨hlength, rfl⟩ := setAt_of_select hnonneg htokens
  have hfilter : ∀ f : ActionMaskEntry → Bool, items.filter f =
      (kept.filter fun p => f ⟨p.1 - 1, (setAt m p.2).1, (setAt m p.2).2⟩).map
        fun p => ⟨p.1 - 1, (setAt m p.2).1, (setAt m p.2).2⟩ := by
    intro f
    rw [filter_map]
    rfl
  -- A mask over the pairs is constant on the pairs of a position.
  have hselect : ∀ (g : Int × Int → List Int) (b : Int × Int → Bool),
      (∀ p ∈ kept, (g p).length = (setLength m p).toNat) → maskSelect (kept.flatMap g)
          (kept.flatMap fun p => replicate (setLength m p).toNat (b p)) =
        (kept.filter b).flatMap g := by
    intro g b hg
    rw [← maskSelect_flatMap]
    congr 1
    apply flatMap_congr
    intro p hp
    rw [hg p hp]
  have hsources : (kept.flatMap fun p => replicate (setLength m p).toNat (p.1 - 1)) =
      kept.flatMap fun p => replicate (setAt m p.2).2.length (p.1 - 1) := by
    apply flatMap_congr
    intro p hp
    rw [hlength p hp]
  have hnot : (kept.flatMap fun p => replicate (setLength m p).toNat
      (m.setModesAllow.getD p.2.toNat false)).map not = kept.flatMap fun p =>
        replicate (setLength m p).toNat (!m.setModesAllow.getD p.2.toNat false) := by
    simp only [map_flatMap, map_replicate]
  rw [hsources, hnot]
  dsimp only
  refine ⟨hindex, ?_, ?_, ?_, ?_, ?_⟩
  · rw [maskSelect_map, hfilter, map_map]
    rfl
  · rw [hselect _ _ fun p hp => by rw [length_replicate, hlength p hp], hfilter, flatMap_map]
    rfl
  · rw [hselect _ _ hlength, hfilter, flatMap_map]
    rfl
  · rw [hselect _ _ fun p hp => by rw [length_replicate, hlength p hp], hfilter, flatMap_map]
    rfl
  · rw [hselect _ _ hlength, hfilter, flatMap_map]
    rfl

theorem expand_isOk (hcount : m.setOffsets.length = m.setModesAllow.length + 1)
    (hindex : ∀ p ∈ kept, 0 ≤ p.2 ∧ p.2.toNat < m.setModesAllow.length)
    (hspan : ∀ p ∈ kept, 0 ≤ m.setOffsets.getD p.2.toNat 0 ∧ 0 ≤ setLength m p ∧
      m.setOffsets.getD (p.2 + 1).toNat 0 ≤ m.tokenIds.length) :
    ∃ pairs, expandLmHeadActionMaskPairs (kept.map (·.1 - 1)) (kept.map (·.2)) m.setModesAllow
      m.setOffsets m.tokenIds = .ok pairs := by
  unfold expandLmHeadActionMaskPairs
  split_ifs with hnil
  · exact ⟨_, rfl⟩
  have hnonneg : ∀ p ∈ kept, 0 ≤ setLength m p := fun p hp => (hspan p hp).2.1
  have hstarts : ∀ p ∈ kept, 0 ≤ p.2 ∧ p.2.toNat < m.setOffsets.length := by
    intro p hp
    have := hindex p hp
    omega
  have hends : ∀ p ∈ kept, 0 ≤ p.2 + 1 ∧ (p.2 + 1).toNat < m.setOffsets.length := by
    intro p hp
    have := hindex p hp
    omega
  have htokens : ∀ i ∈ kept.flatMap (fun p =>
      (arange (setLength m p).toNat).map (m.setOffsets.getD p.2.toNat 0 + ·)),
      0 ≤ i ∧ i.toNat < m.tokenIds.length := by
    intro i hi
    obtain ⟨p, hp, hi⟩ := mem_flatMap.mp hi
    obtain ⟨k, hk, rfl⟩ := mem_map.mp hi
    obtain ⟨j, hj, rfl⟩ := mem_map.mp hk
    obtain ⟨hstart, hlength, hstop⟩ := hspan p hp
    have hj := mem_range.mp hj
    unfold setLength at hj hlength
    simp only [Int.ofNat_eq_natCast]
    omega
  rw [indexSelect_ok false hindex, bind_ok, indexSelect_ok 0 hstarts, bind_ok, map_map]
  simp only [comp_def]
  rw [indexSelect_ok 0 hends, bind_ok]
  simp only [setLengths_eq]
  rw [repeatInterleave_map hnonneg, bind_ok, repeatInterleave_map hnonneg, bind_ok,
    pairGroupStarts_eq hnonneg, bind_ok, pairIndices_eq hnonneg, ← map_id' (kept.flatMap _),
    indexSelect_ok 0 htokens, bind_ok, repeatInterleave_map hnonneg, bind_ok]
  exact ⟨_, rfl⟩

end Expand

/-- The LM head masks that a payload with expanded pairs gives. -/
def lmHeadOf (m : ActionMasks) (pairs : ExpandedPairs) : LmHeadActionMasks :=
  { m, pairs with
    sourcePositions := (keptPairs m).map (·.1 - 1)
    setIndices := (keptPairs m).map (·.2) }

theorem toLmHead_eq_ok {r : Option LmHeadActionMasks} :
    actionMasksToLmHead (some m) = .ok r ↔ Normalized m ∧ ∃ pairs,
      expandLmHeadActionMaskPairs ((keptPairs m).map (·.1 - 1)) ((keptPairs m).map (·.2))
        m.setModesAllow m.setOffsets m.tokenIds = .ok pairs ∧ r = some (lmHeadOf m pairs) := by
  have hkeep (hm : Normalized m) :
      maskSelect (m.positions.map (· - 1))
          ((m.positions.map (· - 1)).map fun p => decide (0 ≤ p)) = (keptPairs m).map (·.1 - 1) ∧
        maskSelect m.setIndices
          ((m.positions.map (· - 1)).map fun p => decide (0 ≤ p)) = (keptPairs m).map (·.2) := by
    have hpositions : m.positions = (m.positions.zip m.setIndices).map (·.1) :=
      (map_fst_zip (le_of_eq hm.indices)).symm
    have hindices : m.setIndices = (m.positions.zip m.setIndices).map (·.2) :=
      (map_snd_zip (le_of_eq hm.indices.symm)).symm
    have hkept : (m.positions.map (· - 1)).map (fun p => decide (0 ≤ p)) =
        (m.positions.zip m.setIndices).map fun p => decide (0 ≤ p.1 - 1) := by
      conv_lhs => rw [hpositions]
      rw [map_map, map_map]
      rfl
    constructor
    · rw [hkept]
      conv_lhs => enter [1]; rw [hpositions]
      rw [map_map, maskSelect_map]
      rfl
    · rw [hkept]
      conv_lhs => enter [1]; rw [hindices]
      rw [maskSelect_map]
      rfl
  rw [actionMasksToLmHead, bind_eq_ok]
  constructor
  · rintro ⟨r', hnormalize, h⟩
    obtain ⟨hm, rfl⟩ := normalize_eq_ok.mp hnormalize
    obtain ⟨hsources, hsets⟩ := hkeep hm
    dsimp only at h
    rw [hsources, hsets] at h
    split at h
    · cases h
    · rename_i pairs hpairs
      cases h
      exact ⟨hm, pairs, hpairs, rfl⟩
  · rintro ⟨hm, pairs, hpairs, rfl⟩
    obtain ⟨hsources, hsets⟩ := hkeep hm
    refine ⟨some m, normalize_eq_ok.mpr ⟨hm, rfl⟩, ?_⟩
    dsimp only
    rw [hsources, hsets, hpairs]
    rfl

/-- The LM head masks of a payload list its constraints on source positions. -/
theorem represents_toLmHead {r : Option LmHeadActionMasks}
    (h : actionMasksToLmHead (some m) = .ok r) :
    Normalized m ∧ ∃ lm, r = some lm ∧ Represents lm (sourceItems m) ∧
      lm.vocabSize = m.vocabSize ∧ lm.localized = false ∧
      ∀ p ∈ keptPairs m, 0 ≤ p.2 ∧ p.2.toNat < m.setModesAllow.length := by
  obtain ⟨hm, pairs, hpairs, rfl⟩ := toLmHead_eq_ok.mp h
  obtain ⟨hindex, hallow, hallowSources, hallowTokens, hdenySources, hdenyTokens⟩ :=
    expand_eq_ok hpairs
  refine ⟨hm, _, rfl, ?_, rfl, rfl, hindex⟩
  rw [← pairsOf_fst] at hallowSources hdenySources
  rw [← pairsOf_snd] at hallowTokens hdenyTokens
  exact ⟨by simp [sourceItems, lmHeadOf, map_map], hallow, hallowSources, hallowTokens,
    hdenySources, hdenyTokens⟩

theorem sourceItems_sorted (h : Normalized m) :
    (sourceItems m).Pairwise (fun a b => a.position < b.position) ∧
      ∀ e ∈ sourceItems m, 0 ≤ e.position := by
  constructor
  · rw [sourceItems, pairwise_map]
    have hsorted : (m.positions.zip m.setIndices).Pairwise fun a b => a.1 < b.1 := by
      have := h.sorted
      rw [← map_fst_zip (le_of_eq h.indices), pairwise_map] at this
      exact this
    refine (hsorted.sublist filter_sublist).imp ?_
    intro a b hab
    simp only
    omega
  · intro e he
    obtain ⟨p, hp, rfl⟩ := mem_map.mp he
    simpa using of_mem_filter hp

end ArcticPlatform.LmHeadMasks
