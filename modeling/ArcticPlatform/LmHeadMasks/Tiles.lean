import ArcticPlatform.LmHeadMasks.Expand

/-!
# Action masks: logits tile by tile

The logits of the LM head are masked in tiles of positions and of tokens.  A tile
first blanks the columns behind the vocabulary, then the rows with an allow set, of
which it restores the allowed tokens, and last the denied tokens.

Main results:

- Theorem `represents_slice`: the masks of a token tile.
- Theorem `applyLocalized_eq`: what the masks of a tile do to its logits.
- Theorem `apply_tiles_eq`: any tiles that cover the logits mask the same ones.
-/

namespace ArcticPlatform.LmHeadMasks

open Results Slices Tensors List Function

/-! ## Masks of a token tile -/

/-- A constraint, with its position counted from the start of a tile. -/
def ActionMaskEntry.shift (tokenStart : Int) (e : ActionMaskEntry) : ActionMaskEntry :=
  { e with position := e.position - tokenStart }

/-- The constraints in a token tile. -/
def tileItems (items : List ActionMaskEntry) (tokenStart tokenEnd : Int) : List ActionMaskEntry :=
  (items.filter fun e => tokenStart ≤ e.position ∧ e.position < tokenEnd).map
    (ActionMaskEntry.shift tokenStart)

theorem slice_map {α β : Type} (f : α → β) (xs : List α) (a b : Nat) :
    slice (xs.map f) a b = (slice xs a b).map f := by
  simp [slice]

section Slice

variable {items : List ActionMaskEntry} {tokenStart tokenEnd : Int}

theorem localize_map {α β : Type} {xs : List α} {f : α → Int} {g : α → β}
    (hsorted : xs.Pairwise fun a b => f a ≤ f b) (hle : tokenStart ≤ tokenEnd) :
    localize (xs.map f) (xs.map g) tokenStart tokenEnd =
      (xs.filter fun x => tokenStart ≤ f x ∧ f x < tokenEnd).map g := by
  rw [localize, slice_map]
  exact congrArg (map g) (slice_searchsorted hsorted hle)

theorem pairwise_pairsOf (hsorted : items.Pairwise fun a b => a.position < b.position) :
    (pairsOf items).Pairwise fun a b => a.1 ≤ b.1 := by
  rw [pairsOf, pairwise_flatMap]
  constructor
  · intro e _
    rw [pairwise_map]
    exact pairwise_of_forall fun _ _ => le_rfl
  · refine hsorted.imp ?_
    intro a b hab p hp q hq
    obtain ⟨_, _, rfl⟩ := mem_map.mp hp
    obtain ⟨_, _, rfl⟩ := mem_map.mp hq
    exact le_of_lt hab

theorem filter_pairsOf (items : List ActionMaskEntry) (P : Int → Bool) :
    (pairsOf items).filter (fun p => P p.1) = pairsOf (items.filter fun e => P e.position) := by
  induction items with
  | nil => rfl
  | cons e items ih =>
    simp only [pairsOf] at ih ⊢
    rw [flatMap_cons, filter_append, ih, filter_map]
    cases hP : P e.position with
    | true => simp [hP, comp_def]
    | false => simp [hP, comp_def]

theorem pairsOf_shift (items : List ActionMaskEntry) (a : Int) :
    pairsOf (items.map (ActionMaskEntry.shift a)) =
      (pairsOf items).map fun p => (p.1 - a, p.2) := by
  simp only [pairsOf, flatMap_map, map_flatMap, map_map]
  rfl

theorem filter_tileItems (items : List ActionMaskEntry) (tokenStart tokenEnd : Int) (f : Bool → Bool) :
    (tileItems items tokenStart tokenEnd).filter (fun e => f e.modeAllow) =
      tileItems (items.filter fun e => f e.modeAllow) tokenStart tokenEnd := by
  rw [tileItems, tileItems, filter_map, filter_comm]
  rfl

theorem pairsOf_tileItems (items : List ActionMaskEntry) (tokenStart tokenEnd : Int) :
    pairsOf (tileItems items tokenStart tokenEnd) =
      ((pairsOf items).filter fun p => tokenStart ≤ p.1 ∧ p.1 < tokenEnd).map
        fun p => (p.1 - tokenStart, p.2) := by
  rw [tileItems, pairsOf_shift,
    filter_pairsOf items fun p => decide (tokenStart ≤ p ∧ p < tokenEnd)]

theorem localize_pairs (hsorted : items.Pairwise fun a b => a.position < b.position)
    (hle : tokenStart ≤ tokenEnd) :
    (localize ((pairsOf items).map Prod.fst) ((pairsOf items).map Prod.fst) tokenStart
        tokenEnd).map (· - tokenStart) =
      (pairsOf (tileItems items tokenStart tokenEnd)).map Prod.fst ∧
    localize ((pairsOf items).map Prod.fst) ((pairsOf items).map Prod.snd) tokenStart tokenEnd =
      (pairsOf (tileItems items tokenStart tokenEnd)).map Prod.snd := by
  have hpairs := pairwise_pairsOf hsorted
  rw [localize_map hpairs hle, localize_map hpairs hle, pairsOf_tileItems, map_map,
    map_map, map_map]
  exact ⟨rfl, rfl⟩

theorem localize_positions (hsorted : items.Pairwise fun a b => a.position < b.position)
    (hle : tokenStart ≤ tokenEnd) :
    (localize (items.map (·.position)) (items.map (·.position)) tokenStart tokenEnd).map
        (· - tokenStart) = (tileItems items tokenStart tokenEnd).map (·.position) := by
  rw [localize_map (hsorted.imp fun h => le_of_lt h) hle, tileItems, map_map, map_map]
  rfl

/-- The masks of a token tile list the constraints in the tile. -/
theorem represents_slice {lm : LmHeadActionMasks} (h : Represents lm items)
    (hsorted : items.Pairwise fun a b => a.position < b.position) (hlocalized : lm.localized = false)
    (hle : tokenStart ≤ tokenEnd) :
    Represents (sliceLmHeadActionMasks lm tokenStart tokenEnd) (tileItems items tokenStart tokenEnd) ∧
      (sliceLmHeadActionMasks lm tokenStart tokenEnd).vocabSize = lm.vocabSize ∧
      ((sliceLmHeadActionMasks lm tokenStart tokenEnd).hasConstraints →
        (sliceLmHeadActionMasks lm tokenStart tokenEnd).localized = true) := by
  have hsource := localize_positions hsorted hle
  unfold sliceLmHeadActionMasks
  dsimp only
  split_ifs with hnone hempty
  · -- Without constraints the masks are returned as they are.
    have hconstraints : lm.hasConstraints = false := by simpa [hlocalized] using hnone
    have hnil : items = [] := by
      have : lm.sourcePositions = [] := by simpa [LmHeadActionMasks.hasConstraints] using hconstraints
      rw [h.sources] at this
      exact map_eq_nil_iff.mp this
    subst hnil
    exact ⟨h, rfl, by simp [hconstraints]⟩
  · -- No constraint is in the tile.
    have hnil : tileItems items tokenStart tokenEnd = [] := by
      rw [← map_eq_nil_iff (f := fun e : ActionMaskEntry => e.position), ← hsource,
        ← h.sources, localize, slice, hempty]
      simp
    rw [hnil]
    exact ⟨⟨rfl, rfl, rfl, rfl, rfl, rfl⟩, rfl, fun _ => rfl⟩
  · have hallow := localize_pairs (hsorted.sublist (filter_sublist
      (p := fun e : ActionMaskEntry => e.modeAllow))) hle
    have hdeny := localize_pairs (hsorted.sublist (filter_sublist
      (p := fun e : ActionMaskEntry => !e.modeAllow))) hle
    have hfallow : (tileItems items tokenStart tokenEnd).filter (·.modeAllow) =
        tileItems (items.filter (·.modeAllow)) tokenStart tokenEnd :=
      filter_tileItems items tokenStart tokenEnd id
    have hfdeny : (tileItems items tokenStart tokenEnd).filter (!·.modeAllow) =
        tileItems (items.filter (!·.modeAllow)) tokenStart tokenEnd :=
      filter_tileItems items tokenStart tokenEnd not
    refine ⟨?_, rfl, fun _ => rfl⟩
    constructor
    case sources => rw [h.sources, hsource]
    case allow =>
      rw [h.allow, hfallow]
      exact localize_positions (hsorted.sublist filter_sublist) hle
    case allowPairSources =>
      rw [h.allowPairSources, hfallow]
      exact hallow.1
    case allowPairTokens =>
      rw [h.allowPairSources, h.allowPairTokens, hfallow]
      exact hallow.2
    case denyPairSources =>
      rw [h.denyPairSources, hfdeny]
      exact hdeny.1
    case denyPairTokens =>
      rw [h.denyPairSources, h.denyPairTokens, hfdeny]
      exact hdeny.2

end Slice

/-! ## Writing a tile -/

section Writes

variable {α : Type} {t : Tile α}

theorem resolve_eq_ok {n : Nat} {i : Int} (h : 0 ≤ i ∧ i < n) : resolve n i = .ok i.toNat :=
  if_pos h

theorem mapM_resolve {n : Nat} {l : List Int} (h : ∀ i ∈ l, 0 ≤ i ∧ i < n) :
    l.mapM (resolve n) = .ok (l.map Int.toNat) := mapM_ok fun i hi => resolve_eq_ok (h i hi)

theorem write_rows (values : List ((Nat × Nat) × α)) :
    (t.write values).rows = t.rows ∧ (t.write values).cols = t.cols := by
  induction values using reverseRecOn with
  | nil => exact ⟨rfl, rfl⟩
  | append_singleton values p ih =>
    rw [Tile.write, foldl_append]
    exact ih

theorem write_of_not_mem {values : List ((Nat × Nat) × α)} {i j : Nat}
    (h : ∀ p ∈ values, p.1 ≠ (i, j)) : (t.write values).get i j = t.get i j := by
  induction values using reverseRecOn with
  | nil => rfl
  | append_singleton values p ih =>
    have ih := ih fun q hq => h q (mem_append_left _ hq)
    have hp : ¬ (i, j) = p.1 := Ne.symm (h p (by simp))
    rw [Tile.write, foldl_append]
    simp only [foldl_cons, foldl_nil, if_neg hp]
    exact ih

theorem write_of_mem {values : List ((Nat × Nat) × α)} {i j : Nat} {v : α}
    (hv : ∀ p ∈ values, p.1 = (i, j) → p.2 = v) (h : ∃ p ∈ values, p.1 = (i, j)) :
    (t.write values).get i j = v := by
  induction values using reverseRecOn with
  | nil => simp at h
  | append_singleton values p ih =>
    rw [Tile.write, foldl_append]
    simp only [foldl_cons, foldl_nil]
    by_cases hp : (i, j) = p.1
    · rw [if_pos hp]
      exact hv p (by simp) hp.symm
    · rw [if_neg hp]
      apply ih fun q hq => hv q (mem_append_left _ hq)
      obtain ⟨q, hq, hqi⟩ := h
      rcases mem_append.mp hq with hq | hq
      · exact ⟨q, hq, hqi⟩
      · rw [mem_singleton.mp hq] at hqi
        exact absurd hqi.symm hp

theorem write_zip_map (places : List (Nat × Nat)) (f : Nat × Nat → α) (i j : Nat) :
    (t.write (places.zip (places.map f))).get i j =
      if (i, j) ∈ places then f (i, j) else t.get i j := by
  have hzip : places.zip (places.map f) = places.map fun p => (p, f p) := by
    rw [zip_map_right, zip_eq_zipWith, zipWith_self, map_map]
    rfl
  rw [hzip]
  split_ifs with hmem
  · apply write_of_mem
    · intro p hp hpi
      obtain ⟨q, -, rfl⟩ := mem_map.mp hp
      rw [← hpi]
    · exact ⟨((i, j), f (i, j)), mem_map.mpr ⟨(i, j), hmem, rfl⟩, rfl⟩
  · apply write_of_not_mem
    intro p hp hpi
    obtain ⟨q, hq, rfl⟩ := mem_map.mp hp
    exact hmem (hpi ▸ hq)

theorem write_const (places : List (Nat × Nat)) (v : α) (i j : Nat) :
    (t.write (places.map fun p => (p, v))).get i j = if (i, j) ∈ places then v else t.get i j := by
  split_ifs with hmem
  · apply write_of_mem
    · intro p hp _
      obtain ⟨q, -, rfl⟩ := mem_map.mp hp
      rfl
    · exact ⟨((i, j), v), mem_map.mpr ⟨(i, j), hmem, rfl⟩, rfl⟩
  · apply write_of_not_mem
    intro p hp hpi
    obtain ⟨q, hq, rfl⟩ := mem_map.mp hp
    exact hmem (hpi ▸ hq)

end Writes

/-! ## Masking a tile -/

/-- A constraint blocks a token at a position. -/
def Blocked (items : List ActionMaskEntry) (vocabSize i v : Int) : Prop :=
  ∃ e ∈ items, e.position = i ∧ (vocabSize ≤ v ∨ if e.modeAllow then v ∉ e.ids else v ∈ e.ids)

instance (items : List ActionMaskEntry) (vocabSize i v : Int) :
    Decidable (Blocked items vocabSize i v) :=
  inferInstanceAs (Decidable (∃ e ∈ items, e.position = i ∧
    (vocabSize ≤ v ∨ if e.modeAllow then v ∉ e.ids else v ∈ e.ids)))

section Apply

variable {α : Type} (negInf : α) {items : List ActionMaskEntry} {t : Tile α}
  {vocabStart vocabEnd : Nat}

/-- The places of pairs whose tokens are in a vocab tile. -/
theorem places_eq {pairs : List (Int × Int)} (hrows : ∀ p ∈ pairs, 0 ≤ p.1 ∧ p.1 < t.rows)
    (hcols : (t.cols : Int) = vocabEnd - vocabStart) :
    let inVocab := (pairs.map Prod.snd).map fun v => decide ((vocabStart : Int) ≤ v ∧ v < vocabEnd)
    ∃ places, t.places (maskSelect (pairs.map Prod.fst) inVocab)
        ((maskSelect (pairs.map Prod.snd) inVocab).map (· - (vocabStart : Int))) = .ok places ∧
      ∀ i j : Nat, j < t.cols → ((i, j) ∈ places ↔ ((i : Int), (vocabStart : Int) + j) ∈ pairs) := by
  intro inVocab
  have hin : inVocab = pairs.map fun p => decide ((vocabStart : Int) ≤ p.2 ∧ p.2 < (vocabEnd : Int)) := by
    simp only [inVocab, map_map, comp_def]
  rw [hin, maskSelect_map, maskSelect_map, map_map]
  set kept := pairs.filter fun p => decide ((vocabStart : Int) ≤ p.2 ∧ p.2 < (vocabEnd : Int)) with hkept
  have hmem : ∀ p, p ∈ kept ↔ p ∈ pairs ∧ (vocabStart : Int) ≤ p.2 ∧ p.2 < vocabEnd := by
    intro p
    rw [hkept, mem_filter, decide_eq_true_eq]
  refine ⟨kept.map fun p => (p.1.toNat, (p.2 - (vocabStart : Int)).toNat), ?_, ?_⟩
  · have hr : ∀ i ∈ kept.map Prod.fst, 0 ≤ i ∧ i < (t.rows : Int) := by
      intro i hi
      obtain ⟨p, hp, rfl⟩ := mem_map.mp hi
      exact hrows p ((hmem p).mp hp).1
    have hc : ∀ j ∈ kept.map ((fun v => v - (vocabStart : Int)) ∘ Prod.snd),
        0 ≤ j ∧ j < (t.cols : Int) := by
      intro j hj
      obtain ⟨p, hp, rfl⟩ := mem_map.mp hj
      have := ((hmem p).mp hp).2
      simp only [comp_apply]
      omega
    rw [Tile.places, mapM_resolve hr, bind_ok, mapM_resolve hc, bind_ok, map_map, map_map, zip_map']
    rfl
  · intro i j hj
    rw [mem_map]
    constructor
    · rintro ⟨p, hp, heq⟩
      obtain ⟨hp, hlo, hhi⟩ := (hmem p).mp hp
      have hr := hrows p hp
      have hi : p.1.toNat = i := congrArg Prod.fst heq
      have hv : (p.2 - vocabStart).toNat = j := congrArg Prod.snd heq
      have heq : ((i : Int), (vocabStart : Int) + j) = p := by
        apply Prod.ext
        · simp only
          omega
        · simp only
          omega
      rw [heq]
      exact hp
    · intro hp
      refine ⟨_, (hmem _).mpr ⟨hp, ?_⟩, ?_⟩
      · simp only
        omega
      · apply Prod.ext
        · simp
        · simp

theorem mem_pairsOf {p : Int × Int} :
    p ∈ pairsOf items ↔ ∃ e ∈ items, e.position = p.1 ∧ p.2 ∈ e.ids := by
  rw [pairsOf, mem_flatMap]
  constructor
  · rintro ⟨e, he, hp⟩
    obtain ⟨v, hv, rfl⟩ := mem_map.mp hp
    exact ⟨e, he, rfl, hv⟩
  · rintro ⟨e, he, hpos, hv⟩
    exact ⟨e, he, mem_map.mpr ⟨p.2, hv, by rw [hpos]⟩⟩

theorem fillRows_eq {rows : List Int} (hrows : ∀ i ∈ rows, 0 ≤ i ∧ i < t.rows) (start : Int) :
    ∃ t', t.fillRows rows start negInf = .ok t' ∧ t'.rows = t.rows ∧ t'.cols = t.cols ∧
      ∀ i j : Nat, t'.get i j =
        if (i : Int) ∈ rows ∧ clip t.cols start ≤ j then negInf else t.get i j := by
  have hmem : ∀ i : Nat, i ∈ rows.map Int.toNat ↔ (i : Int) ∈ rows := by
    intro i
    rw [mem_map]
    constructor
    · rintro ⟨x, hx, rfl⟩
      rwa [Int.toNat_of_nonneg (hrows x hx).1]
    · intro hi
      exact ⟨i, hi, by simp⟩
  rw [Tile.fillRows, mapM_resolve hrows, bind_ok]
  refine ⟨_, rfl, rfl, rfl, ?_⟩
  intro i j
  simp only [hmem]

theorem blankInvalid_eq (hrows : ∀ e ∈ items, 0 ≤ e.position ∧ e.position < t.rows) (vocabSize : Int)
    (hcols : (t.cols : Int) = vocabEnd - vocabStart) :
    ∃ t', blankInvalid negInf t (items.map (·.position)) vocabSize vocabStart vocabEnd = .ok t' ∧
      t'.rows = t.rows ∧ t'.cols = t.cols ∧ ∀ i j : Nat, j < t.cols → t'.get i j =
        if (∃ e ∈ items, e.position = i) ∧ vocabSize ≤ vocabStart + j then negInf
        else t.get i j := by
  have hmem : ∀ i : Int, i ∈ items.map (·.position) ↔ ∃ e ∈ items, e.position = i := by
    intro i
    rw [mem_map]
  unfold blankInvalid
  dsimp only
  split_ifs with hinvalid
  · have hrows' : ∀ i ∈ items.map (·.position), 0 ≤ i ∧ i < (t.rows : Int) := by
      intro i hi
      obtain ⟨e, he, rfl⟩ := mem_map.mp hi
      exact hrows e he
    obtain ⟨t', hfill, hr, hc, hget⟩ := fillRows_eq negInf hrows'
      (max (vocabStart : Int) vocabSize - vocabStart)
    refine ⟨t', hfill, hr, hc, ?_⟩
    intro i j hj
    have hclip : clip t.cols (max (vocabStart : Int) vocabSize - vocabStart) ≤ j ↔
        vocabSize ≤ vocabStart + j := by
      rw [clip, if_neg (by omega)]
      omega
    rw [hget]
    simp only [hmem, hclip]
  · refine ⟨t, rfl, rfl, rfl, ?_⟩
    intro i j hj
    rw [if_neg]
    rintro ⟨-, hv⟩
    omega

/-- The four writes to a logit come to one test. -/
theorem blocked_cases (hsorted : items.Pairwise fun a b => a.position < b.position)
    {vocabSize i v : Int} {cols j : Nat} (x : α) :
    (if (i, v) ∈ pairsOf (items.filter (!·.modeAllow)) then negInf
      else if (i, v) ∈ pairsOf (items.filter (·.modeAllow)) then
        if (∃ e ∈ items, e.position = i) ∧ vocabSize ≤ v then negInf else x
      else if i ∈ (items.filter (·.modeAllow)).map (·.position) ∧ clip cols 0 ≤ j then negInf
        else if (∃ e ∈ items, e.position = i) ∧ vocabSize ≤ v then negInf else x) =
      if Blocked items vocabSize i v then negInf else x := by
  have hclip : clip cols 0 ≤ j := by simp [clip]
  have hpairs : ∀ f : ActionMaskEntry → Bool, (i, v) ∈ pairsOf (items.filter f) ↔
      ∃ e ∈ items, e.position = i ∧ f e ∧ v ∈ e.ids := by
    intro f
    rw [mem_pairsOf]
    simp only [mem_filter]
    constructor
    · rintro ⟨e, ⟨he, hf⟩, hpos, hv⟩
      exact ⟨e, he, hpos, hf, hv⟩
    · rintro ⟨e, he, hpos, hf, hv⟩
      exact ⟨e, ⟨he, hf⟩, hpos, hv⟩
  have hrow : i ∈ (items.filter (·.modeAllow)).map (·.position) ↔
      ∃ e ∈ items, e.position = i ∧ e.modeAllow := by
    simp only [mem_map, mem_filter]
    constructor
    · rintro ⟨e, ⟨he, hallow⟩, hpos⟩
      exact ⟨e, he, hpos, hallow⟩
    · rintro ⟨e, he, hpos, hallow⟩
      exact ⟨e, ⟨he, hallow⟩, hpos⟩
  have hnodup : (items.map (·.position)).Nodup := by
    rw [Nodup, pairwise_map]
    exact hsorted.imp fun h => ne_of_lt h
  simp only [hpairs, hrow, hclip, and_true, Blocked]
  by_cases hex : ∃ e ∈ items, e.position = i
  · obtain ⟨e, he, rfl⟩ := hex
    -- One constraint at most is at a position.
    have hone : ∀ P : ActionMaskEntry → Prop,
        (∃ e' ∈ items, e'.position = e.position ∧ P e') ↔ P e := by
      intro P
      constructor
      · rintro ⟨e', he', hpos, hP⟩
        rwa [← inj_on_of_nodup_map hnodup he' he hpos]
      · exact fun hP => ⟨e, he, rfl, hP⟩
    have hsome : ∃ e' ∈ items, e'.position = e.position := ⟨e, he, rfl⟩
    simp only [hone, hsome, true_and]
    cases e.modeAllow with
    | true => by_cases hv : v ∈ e.ids <;> simp [hv]
    | false => by_cases hv : v ∈ e.ids <;> simp [hv]
  · have hnone : ∀ P : ActionMaskEntry → Prop, ¬ ∃ e ∈ items, e.position = i ∧ P e := by
      rintro P ⟨e, he, hpos, -⟩
      exact hex ⟨e, he, hpos⟩
    simp only [hnone, hex, false_and, if_false]

/-- What the masks of a tile do to its logits. -/
theorem applyLocalized_eq {lm : LmHeadActionMasks} (h : Represents lm items)
    (hsorted : items.Pairwise fun a b => a.position < b.position)
    (hrows : ∀ e ∈ items, 0 ≤ e.position ∧ e.position < t.rows)
    (hcols : (t.cols : Int) = vocabEnd - vocabStart) :
    ∃ t', applyLocalized negInf t lm vocabStart vocabEnd = .ok t' ∧ t'.rows = t.rows ∧
      t'.cols = t.cols ∧ ∀ i j : Nat, j < t.cols → t'.get i j =
        if Blocked items lm.vocabSize i (vocabStart + j) then negInf else t.get i j := by
  obtain ⟨t₁, hfill, hr₁, hc₁, hget₁⟩ := blankInvalid_eq negInf hrows lm.vocabSize hcols
  have hpairRows : ∀ f : ActionMaskEntry → Bool, ∀ p ∈ pairsOf (items.filter f),
      0 ≤ p.1 ∧ p.1 < t₁.rows := by
    intro f p hp
    obtain ⟨e, he, hpos, -⟩ := mem_pairsOf.mp hp
    rw [← hpos, hr₁]
    exact hrows e (mem_of_mem_filter he)
  obtain ⟨allowPlaces, hallow, hmemAllow⟩ := places_eq (t := t₁) (hpairRows (·.modeAllow))
    (by rw [hc₁]; exact hcols)
  have hallowRows : ∀ i ∈ (items.filter (·.modeAllow)).map (·.position),
      0 ≤ i ∧ i < (t₁.rows : Int) := by
    intro i hi
    obtain ⟨e, he, rfl⟩ := mem_map.mp hi
    rw [hr₁]
    exact hrows e (mem_of_mem_filter he)
  obtain ⟨t₂, hfill₂, hr₂, hc₂, hget₂⟩ := fillRows_eq negInf hallowRows 0
  set t₃ := t₂.write (allowPlaces.zip (allowPlaces.map fun p => t₁.get p.1 p.2)) with ht₃
  obtain ⟨hr₃, hc₃⟩ := write_rows (t := t₂)
    (allowPlaces.zip (allowPlaces.map fun p => t₁.get p.1 p.2))
  have hrows₃ : t₃.rows = t₁.rows := hr₃.trans hr₂
  have hcols₃ : t₃.cols = t.cols := (hc₃.trans hc₂).trans hc₁
  have hdenyRows : ∀ p ∈ pairsOf (items.filter (!·.modeAllow)), 0 ≤ p.1 ∧ p.1 < t₃.rows := by
    rw [hrows₃]
    exact hpairRows (!·.modeAllow)
  obtain ⟨denyPlaces, hdeny, hmemDeny⟩ := places_eq hdenyRows (by rw [hcols₃]; exact hcols)
  obtain ⟨hr₄, hc₄⟩ := write_rows (t := t₃) (denyPlaces.map fun p => (p, negInf))
  refine ⟨t₃.write (denyPlaces.map fun p => (p, negInf)), ?_, (hr₄.trans hrows₃).trans hr₁,
    hc₄.trans hcols₃, ?_⟩
  · unfold applyLocalized
    rw [h.sources, h.allow, h.allowPairSources, h.allowPairTokens, h.denyPairSources,
      h.denyPairTokens]
    dsimp only
    rw [hfill, bind_ok, hallow, bind_ok, hfill₂, bind_ok, hdeny, bind_ok]
  · intro i j hj
    rw [write_const, ht₃, write_zip_map, hget₂, hget₁ i j hj]
    simp only [hmemDeny i j (by rwa [hcols₃]), hmemAllow i j (by rwa [hc₁])]
    exact blocked_cases negInf hsorted (t.get i j)

/-- Masks of a tile, with or without constraints. -/
theorem apply_slice_eq {lm : LmHeadActionMasks} (h : Represents lm items)
    (hsorted : items.Pairwise fun a b => a.position < b.position) (hlocalized : lm.localized = false)
    (tokenStart : Nat) (hcols : (t.cols : Int) = vocabEnd - vocabStart) (sliceFirst : Bool) :
    ∃ t', applyLmHeadActionMasks negInf t
        (some (if sliceFirst then sliceLmHeadActionMasks lm tokenStart (tokenStart + t.rows) else lm))
        (if sliceFirst then 0 else tokenStart) vocabStart vocabEnd = .ok t' ∧ t'.rows = t.rows ∧
      t'.cols = t.cols ∧ ∀ i j : Nat, i < t.rows → j < t.cols → t'.get i j =
        if Blocked items lm.vocabSize (tokenStart + i) (vocabStart + j) then negInf
        else t.get i j := by
  have hle : (tokenStart : Int) ≤ tokenStart + t.rows := by omega
  obtain ⟨hslice, hvocab, hlocal⟩ := represents_slice h hsorted hlocalized hle
  set sliced := sliceLmHeadActionMasks lm tokenStart (tokenStart + t.rows) with hsliced
  have happly : applyLmHeadActionMasks negInf t (some (if sliceFirst then sliced else lm))
      (if sliceFirst then 0 else tokenStart) vocabStart vocabEnd =
      if ¬ sliced.hasConstraints then .ok t
      else applyLocalized negInf t sliced vocabStart vocabEnd := by
    cases sliceFirst with
    | true =>
      simp only [applyLmHeadActionMasks, if_true]
      by_cases hsome : sliced.hasConstraints
      · simp [hsome, hlocal hsome]
      · simp [hsome]
    | false =>
      simp only [applyLmHeadActionMasks, Bool.false_eq_true, if_false, hlocalized]
      by_cases hsome : lm.hasConstraints
      · rw [if_neg (not_not.mpr hsome)]
      · have hsame : sliced = lm := by
          rw [hsliced, sliceLmHeadActionMasks, if_pos (.inr hsome)]
        simp [hsame, hsome]
  have hshift : ∀ i j : Nat, i < t.rows → (Blocked (tileItems items tokenStart (tokenStart + t.rows))
      sliced.vocabSize i (vocabStart + j) ↔
        Blocked items lm.vocabSize (tokenStart + i) (vocabStart + j)) := by
    intro i j hi
    rw [hvocab]
    constructor
    · rintro ⟨e, he, hpos, hblocks⟩
      obtain ⟨e', he', rfl⟩ := mem_map.mp he
      refine ⟨e', mem_of_mem_filter he', ?_, hblocks⟩
      simp only [ActionMaskEntry.shift] at hpos
      omega
    · rintro ⟨e, he, hpos, hblocks⟩
      refine ⟨e.shift tokenStart, mem_map_of_mem (mem_filter.mpr ⟨he, ?_⟩), ?_, hblocks⟩
      · rw [decide_eq_true_eq]
        omega
      · simp only [ActionMaskEntry.shift]
        omega
  have hsortedTile : (tileItems items tokenStart (tokenStart + t.rows)).Pairwise
      fun a b => a.position < b.position := by
    rw [tileItems, pairwise_map]
    refine (hsorted.sublist filter_sublist).imp ?_
    intro a b hab
    simp only [ActionMaskEntry.shift]
    omega
  have hrows : ∀ e ∈ tileItems items tokenStart (tokenStart + t.rows),
      0 ≤ e.position ∧ e.position < t.rows := by
    intro e he
    obtain ⟨e', he', rfl⟩ := mem_map.mp he
    have := of_decide_eq_true (mem_filter.mp he').2
    simp only [ActionMaskEntry.shift]
    omega
  rw [happly]
  by_cases hsome : sliced.hasConstraints
  · obtain ⟨t', hmask, hr, hc, hget⟩ := applyLocalized_eq negInf hslice hsortedTile hrows hcols
    rw [if_neg (not_not.mpr hsome)]
    refine ⟨t', hmask, hr, hc, ?_⟩
    intro i j hi hj
    rw [hget i j hj]
    simp only [hshift i j hi]
  · -- Without a constraint in the tile nothing is blocked.
    rw [if_pos hsome]
    refine ⟨t, rfl, rfl, rfl, ?_⟩
    intro i j hi _
    rw [if_neg]
    rw [← hshift i j hi]
    rintro ⟨e, he, -⟩
    have hsources : sliced.sourcePositions = [] := by
      simpa [LmHeadActionMasks.hasConstraints] using hsome
    rw [hslice.sources] at hsources
    rw [map_eq_nil_iff.mp hsources] at he
    cases he

end Apply

/-! ## Masking all tiles -/

section Tiles

variable {α : Type} (negInf : α)

/-- The tile of the logits with `rows` positions and `cols` tokens. -/
def Tile.ofLogits (logits : Nat → Nat → α) (tokens vocab : Nat × Nat) : Tile α :=
  ⟨tokens.2, vocab.2, fun i j => logits (tokens.1 + i) (vocab.1 + j)⟩

/-- A position or token is in an interval with a start and a length. -/
def inTile (tile : Nat × Nat) (i : Nat) : Prop := tile.1 ≤ i ∧ i < tile.1 + tile.2

instance (tile : Nat × Nat) : DecidablePred (inTile tile) :=
  fun i => inferInstanceAs (Decidable (tile.1 ≤ i ∧ i < tile.1 + tile.2))

/-- The logits with a tile put back. -/
def Tile.store (t : Tile α) (logits : Nat → Nat → α) (tokens vocab : Nat × Nat) : Nat → Nat → α :=
  fun i v => if inTile tokens i ∧ inTile vocab v then t.get (i - tokens.1) (v - vocab.1)
    else logits i v

/-- Mask a tile of the logits, directly or after the masks are cut to the token tile. -/
def maskTile (lm : LmHeadActionMasks) (sliceFirst : Bool) (logits : Nat → Nat → α)
    (tile : (Nat × Nat) × (Nat × Nat)) : Except TensorError (Nat → Nat → α) := do
  let t := Tile.ofLogits logits tile.1 tile.2
  let lm := if sliceFirst then sliceLmHeadActionMasks lm tile.1.1 (tile.1.1 + tile.1.2) else lm
  let t ← applyLmHeadActionMasks negInf t (some lm) (if sliceFirst then 0 else tile.1.1) tile.2.1
    (tile.2.1 + tile.2.2)
  .ok (t.store logits tile.1 tile.2)

/-- Mask the logits tile by tile: all vocab tiles of a token tile, then the next token tile. -/
def maskTiles (lm : LmHeadActionMasks) (sliceFirst : Bool) (tokenTiles vocabTiles : List (Nat × Nat))
    (logits : Nat → Nat → α) : Except TensorError (Nat → Nat → α) :=
  (tokenTiles.flatMap fun t => vocabTiles.map (Prod.mk t)).foldlM (maskTile negInf lm sliceFirst)
    logits

variable {items : List ActionMaskEntry} {lm : LmHeadActionMasks}

theorem maskTile_eq (h : Represents lm items)
    (hsorted : items.Pairwise fun a b => a.position < b.position) (hlocalized : lm.localized = false)
    (sliceFirst : Bool) (logits : Nat → Nat → α) (tile : (Nat × Nat) × (Nat × Nat)) :
    ∃ r, maskTile negInf lm sliceFirst logits tile = .ok r ∧ ∀ i v, r i v =
      if inTile tile.1 i ∧ inTile tile.2 v ∧ Blocked items lm.vocabSize i v then negInf
      else logits i v := by
  obtain ⟨⟨tokenStart, rows⟩, ⟨vocabStart, cols⟩⟩ := tile
  have hcols : ((Tile.ofLogits logits (tokenStart, rows) (vocabStart, cols)).cols : Int) =
      ((vocabStart + cols : Nat) : Int) - (vocabStart : Nat) := by
    simp [Tile.ofLogits]
  obtain ⟨t', happly, hr, hc, hget⟩ :=
    apply_slice_eq negInf h hsorted hlocalized tokenStart hcols sliceFirst
  refine ⟨t'.store logits (tokenStart, rows) (vocabStart, cols), ?_, ?_⟩
  · rw [maskTile]
    cases sliceFirst with
    | true =>
      simp only [if_true] at happly ⊢
      exact bind_eq_ok.mpr ⟨t', happly, rfl⟩
    | false =>
      simp only [Bool.false_eq_true, if_false] at happly ⊢
      exact bind_eq_ok.mpr ⟨t', happly, rfl⟩
  · intro i v
    simp only [Tile.store]
    by_cases hi : inTile (tokenStart, rows) i
    · by_cases hv : inTile (vocabStart, cols) v
      · have hi' : i - tokenStart < rows := by
          simp only [inTile] at hi
          omega
        have hv' : v - vocabStart < cols := by
          simp only [inTile] at hv
          omega
        have hpos : ((tokenStart : Int) + ((i - tokenStart : Nat) : Int)) = i := by
          simp only [inTile] at hi
          omega
        have htok : ((vocabStart : Int) + ((v - vocabStart : Nat) : Int)) = v := by
          simp only [inTile] at hv
          omega
        have hlogit : (Tile.ofLogits logits (tokenStart, rows) (vocabStart, cols)).get
            (i - tokenStart) (v - vocabStart) = logits i v := by
          simp only [Tile.ofLogits, inTile] at hi hv ⊢
          rw [Nat.add_sub_cancel' hi.1, Nat.add_sub_cancel' hv.1]
        rw [if_pos ⟨hi, hv⟩, hget _ _ hi' hv', hpos, htok, hlogit]
        simp only [hi, hv, true_and]
      · simp [hv]
    · simp [hi]

/-- Any tiles that cover the logits mask the same ones: those of a constrained position whose token
is outside the allowed set, inside the denied set, or behind the vocabulary. -/
theorem apply_tiles_eq {m : ActionMasks} {lm : Option LmHeadActionMasks}
    (h : actionMasksToLmHead (some m) = .ok lm) {tokens vocab : Nat}
    {tokenTiles vocabTiles : List (Nat × Nat)}
    (htokens : ∀ i, i < tokens ↔ ∃ tile ∈ tokenTiles, inTile tile i)
    (hvocab : ∀ v, v < vocab ↔ ∃ tile ∈ vocabTiles, inTile tile v) (sliceFirst : Bool)
    (logits : Nat → Nat → α) :
    ∃ lm' r, lm = some lm' ∧ maskTiles negInf lm' sliceFirst tokenTiles vocabTiles logits = .ok r ∧
      ∀ i v, r i v = if i < tokens ∧ v < vocab ∧ Blocked (sourceItems m) m.vocabSize i v then negInf
        else logits i v := by
  obtain ⟨hm, lm, rfl, hrep, hsize, hlocalized, -⟩ := represents_toLmHead h
  obtain ⟨hsorted, -⟩ := sourceItems_sorted hm
  have hloop := foldlM_isOk (f := maskTile negInf lm sliceFirst) (s := logits)
    (P := fun done r => ∀ i v, r i v = if (∃ tile ∈ done, inTile tile.1 i ∧ inTile tile.2 v) ∧
        Blocked (sourceItems m) m.vocabSize i v then negInf else logits i v)
    (l := tokenTiles.flatMap fun t => vocabTiles.map (Prod.mk t)) (by simp) ?_
  · obtain ⟨r, hr, hget⟩ := hloop
    refine ⟨lm, r, rfl, hr, ?_⟩
    intro i v
    have hcover : (∃ tile ∈ tokenTiles.flatMap fun t => vocabTiles.map (Prod.mk t),
        inTile tile.1 i ∧ inTile tile.2 v) ↔ i < tokens ∧ v < vocab := by
      rw [htokens, hvocab]
      constructor
      · rintro ⟨tile, htile, hi, hv⟩
        obtain ⟨t, ht, htile⟩ := mem_flatMap.mp htile
        obtain ⟨w, hw, rfl⟩ := mem_map.mp htile
        exact ⟨⟨t, ht, hi⟩, w, hw, hv⟩
      · rintro ⟨⟨t, ht, hi⟩, w, hw, hv⟩
        exact ⟨(t, w), mem_flatMap.mpr ⟨t, ht, mem_map_of_mem hw⟩, hi, hv⟩
    rw [hget]
    simp only [hcover, and_assoc]
  · intro done tile r _ hr
    obtain ⟨r', hr', hget⟩ := maskTile_eq negInf hrep hsorted hlocalized sliceFirst r tile
    refine ⟨r', hr', ?_⟩
    intro i v
    have hsplit : (∃ x ∈ done ++ [tile], inTile x.1 i ∧ inTile x.2 v) ↔
        (∃ x ∈ done, inTile x.1 i ∧ inTile x.2 v) ∨ (inTile tile.1 i ∧ inTile tile.2 v) := by
      constructor
      · rintro ⟨x, hx, hin⟩
        rcases mem_append.mp hx with hx | hx
        · exact .inl ⟨x, hx, hin⟩
        · rw [mem_singleton.mp hx] at hin
          exact .inr hin
      · rintro (⟨x, hx, hin⟩ | hin)
        · exact ⟨x, mem_append_left _ hx, hin⟩
        · exact ⟨tile, by simp, hin⟩
    rw [hget, hr, hsize]
    simp only [hsplit]
    by_cases hblocked : Blocked (sourceItems m) m.vocabSize i v
    · by_cases htile : inTile tile.1 i ∧ inTile tile.2 v
      · simp [hblocked, htile]
      · simp only [hblocked, and_true, htile, or_false, if_false]
    · simp [hblocked]

/-- An allow set at the first position and a deny set at the third one. -/
def twoConstraints : ActionMasks where
  seqLen := 4
  vocabSize := 3
  positions := [1, 3]
  setIndices := [0, 1]
  setModesAllow := [true, false]
  setOffsets := [0, 1, 2]
  tokenIds := [0, 2]

theorem apply_tiles_eq_twoConstraints :
    ∃ lm r, actionMasksToLmHead (some twoConstraints) = .ok (some lm) ∧
      maskTiles none lm true [(0, 2), (2, 2)] [(0, 1), (1, 3)] (fun i v => some (i + v)) = .ok r ∧
      r 0 0 = some 0 ∧ r 0 1 = none ∧ r 1 3 = some 4 ∧ r 2 1 = some 3 ∧ r 2 2 = none ∧
      r 2 3 = none := by
  obtain ⟨lm, hlm⟩ : ∃ lm, actionMasksToLmHead (some twoConstraints) = .ok (some lm) := ⟨_, rfl⟩
  have htokens : ∀ i, i < 4 ↔ ∃ tile ∈ [((0 : Nat), (2 : Nat)), (2, 2)], inTile tile i := by
    intro i
    simp only [mem_cons, not_mem_nil, or_false, exists_eq_or_imp, exists_eq_left, inTile]
    omega
  have hvocab : ∀ v, v < 4 ↔ ∃ tile ∈ [((0 : Nat), (1 : Nat)), (1, 3)], inTile tile v := by
    intro v
    simp only [mem_cons, not_mem_nil, or_false, exists_eq_or_imp, exists_eq_left, inTile]
    omega
  obtain ⟨lm', r, hsome, hmask, hget⟩ := apply_tiles_eq (none : Option Nat) hlm htokens hvocab true
    fun i v => some (i + v)
  cases hsome
  refine ⟨lm, r, hlm, hmask, ?_⟩
  simp only [hget]
  decide

end Tiles

end ArcticPlatform.LmHeadMasks
