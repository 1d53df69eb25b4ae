import ArcticPlatform.LmHeadMasks.Interning
import ArcticPlatform.LmHeadMasks.Tiles
import Mathlib

/-!
# Action masks: kept logits

A caller may score a part of the columns of a sequence only.
`slice_action_masks_for_logits_to_keep` moves the masks of the whole sequence to the
columns that are kept.  Masking the kept logits gives what masking all of them gives, up
to sets without tokens: making a payload from entries drops them.

Main results:

- Theorem `mem_constraints_sliced`: the constraints on the kept columns.
- Theorem `slice_masks_iff`: when masking and keeping columns commute.
-/

namespace ArcticPlatform.LmHeadMasks

open Dicts Results Slices Tensors List

/-! ## Columns -/

/-- `logits_to_keep`: the last so many columns, or the columns in a list. -/
inductive LogitsToKeep where
  | count (k : Int)
  | columns (raw : List Int)

/-- What slicing the masks raises. -/
inductive SliceError where
  | masks (e : Error)
  | sourcePositions
  | keepIndices
  deriving DecidableEq

/-- What the functions for masks raise is passed on. -/
def ofMasks {α : Type} : Except Error α → Except SliceError α
  | .ok a => .ok a
  | .error e => .error (.masks e)

/-- A column, counted from the end when negative. -/
def logitsColumn (originalSeqLen : Nat) (rawColumn : Int) : Except SliceError Nat :=
  let column := if rawColumn < 0 then rawColumn + originalSeqLen else rawColumn
  if column < 0 ∨ (originalSeqLen : Int) ≤ column then .error .keepIndices else .ok column.toNat

/-- `_logits_to_keep_columns`: `none` is the whole sequence. -/
def logitsToKeepColumns (logitsToKeep : LogitsToKeep) (originalSeqLen : Nat) :
    Except SliceError (Option (List Nat)) :=
  match logitsToKeep with
  | .count k =>
    if k ≤ 0 ∨ (originalSeqLen : Int) ≤ k then .ok none
    else .ok (some (range' (originalSeqLen - k.toNat) k.toNat))
  | .columns raw => do
    let columns ← raw.mapM (logitsColumn originalSeqLen)
    .ok (some columns)

/-! ## Masks -/

/-- The places of each column among the selected ones. -/
def selectedByColumn (selectedColumns : List Nat) : Dict Nat (List Nat) :=
  selectedColumns.zipIdx.foldl
    (fun d p => d.set p.1 ((d.get? p.1).getD [] ++ [p.2])) .empty

/-- The body of the loop over the entries. -/
def keptEntries (batchSize originalSeqLen keptSeqLen : Nat) (selected : Dict Nat (List Nat))
    (e : ActionMaskEntry) : Except SliceError (List ActionMaskEntry) :=
  let sourcePosition := e.position - 1
  if sourcePosition < 0 then .ok []
  else if (batchSize * originalSeqLen : Nat) ≤ sourcePosition then .error .sourcePositions
  else
    let row := sourcePosition.toNat / originalSeqLen
    let col := sourcePosition.toNat % originalSeqLen
    .ok (((selected.get? col).getD []).map fun localCol =>
      { e with position := (row * keptSeqLen + localCol : Nat) + 1 })

/-- `slice_action_masks_for_logits_to_keep`. -/
def sliceActionMasksForLogitsToKeep (actionMasks : Option ActionMasks)
    (batchSize originalSeqLen : Nat) (logitsToKeep : LogitsToKeep) :
    Except SliceError (Option ActionMasks) := do
  match ← ofMasks (normalizeActionMasks actionMasks) with
  | none => .ok none
  | some m =>
    match ← logitsToKeepColumns logitsToKeep originalSeqLen with
    | none => .ok (some m)
    | some columns =>
      if columns = range originalSeqLen then .ok (some m)
      else do
        let es ← ofMasks (actionMaskEntries (some m))
        let entries ←
          es.mapM (keptEntries batchSize originalSeqLen columns.length (selectedByColumn columns))
        ofMasks (actionMasksFromEntries (batchSize * columns.length + 1 : Nat) m.vocabSize
          entries.flatten)

/-! ## Keeping columns of the logits -/

/-- The columns that a caller takes of the hidden states: `[:, -k:]` for a positive count, all for
another count, `[:, columns]` for a list. -/
def keptColumns (logitsToKeep : LogitsToKeep) (originalSeqLen : Nat) : List Nat :=
  match logitsToKeep with
  | .count k => if 0 < k then (range originalSeqLen).drop (originalSeqLen - k.toNat)
      else range originalSeqLen
  | .columns raw => raw.map fun c : Int => (if c < 0 then c + originalSeqLen else c).toNat

/-- The columns of a list are columns of the sequence. -/
def LogitsToKeep.InRange (logitsToKeep : LogitsToKeep) (originalSeqLen : Nat) : Prop :=
  match logitsToKeep with
  | .count _ => True
  | .columns raw => ∀ c ∈ raw, -(originalSeqLen : Int) ≤ c ∧ c < originalSeqLen

/-- The row of the full logits that a row of the kept logits is. -/
def keptRow (columns : List Nat) (originalSeqLen i : Nat) : Nat :=
  i / columns.length * originalSeqLen + columns.getD (i % columns.length) 0

section Columns

variable {S : Nat} {keep : LogitsToKeep}

theorem logitsColumn_eq {c : Int} (h : -(S : Int) ≤ c ∧ c < S) :
    logitsColumn S c = .ok (if c < 0 then c + S else c).toNat := by
  unfold logitsColumn
  dsimp only
  rw [if_neg]
  split_ifs <;> omega

theorem logitsToKeepColumns_eq (h : keep.InRange S) :
    ∃ r, logitsToKeepColumns keep S = .ok r ∧ r.getD (range S) = keptColumns keep S := by
  cases keep with
  | count k =>
    unfold logitsToKeepColumns keptColumns
    dsimp only
    split_ifs with hall hpos hpos
    · have hdrop : S - k.toNat = 0 := by omega
      exact ⟨none, rfl, by rw [hdrop]; rfl⟩
    · exact ⟨none, rfl, rfl⟩
    · refine ⟨_, rfl, ?_⟩
      have hk : k.toNat = S - (S - k.toNat) := by omega
      rw [Option.getD_some, range_eq_range', drop_range']
      conv_lhs => rw [hk]
      congr 1
      omega
    · omega
  | columns raw =>
    refine ⟨some (keptColumns (.columns raw) S), ?_, rfl⟩
    have hmap : raw.mapM (logitsColumn S) = .ok (keptColumns (.columns raw) S) :=
      mapM_ok fun c hc => logitsColumn_eq (h c hc)
    rw [logitsToKeepColumns, hmap]
    rfl

theorem keptColumns_lt (h : keep.InRange S) : ∀ c ∈ keptColumns keep S, c < S := by
  intro c hc
  cases keep with
  | count k =>
    unfold keptColumns at hc
    dsimp only at hc
    split_ifs at hc
    · exact mem_range.mp (mem_of_mem_drop hc)
    · exact mem_range.mp hc
  | columns raw =>
    obtain ⟨raw', hraw, rfl⟩ := mem_map.mp hc
    have := h raw' hraw
    split_ifs <;> omega

theorem get?_selectedByColumn (columns : List Nat) (col : Nat) :
    ((selectedByColumn columns).get? col).getD [] =
      (columns.zipIdx.filter fun p => p.1 = col).map Prod.snd := by
  rw [selectedByColumn]
  induction columns.zipIdx using reverseRecOn with
  | nil => rfl
  | append_singleton l p ih =>
    rw [foldl_concat, Dict.get?_set, filter_append, map_append]
    by_cases hcol : col = p.1
    · rw [if_pos hcol, Option.getD_some, ← hcol, ih]
      simp [hcol]
    · rw [if_neg hcol, ih]
      simp [Ne.symm hcol]

theorem mem_selectedByColumn {columns : List Nat} {col k : Nat} :
    k ∈ ((selectedByColumn columns).get? col).getD [] ↔ columns[k]? = some col := by
  rw [get?_selectedByColumn]
  simp [mem_zipIdx_iff_getElem?]

theorem nodup_selectedByColumn (columns : List Nat) (col : Nat) :
    (((selectedByColumn columns).get? col).getD []).Nodup := by
  rw [get?_selectedByColumn]
  have hsub : ((columns.zipIdx.filter fun p => p.1 = col).map Prod.snd).Sublist
      (columns.zipIdx.map Prod.snd) := filter_sublist.map _
  apply hsub.nodup
  rw [zipIdx_map_snd]
  exact nodup_range'

end Columns

/-! ## Moving entries -/

section Move

variable {B S : Nat} {columns : List Nat}

/-- The entries of the kept columns that an entry becomes. -/
def movedEntries (S : Nat) (columns : List Nat) (e : ActionMaskEntry) : List ActionMaskEntry :=
  if e.position - 1 < 0 then []
  else (((selectedByColumn columns).get? ((e.position - 1).toNat % S)).getD []).map fun localCol =>
    { e with position := ((e.position - 1).toNat / S * columns.length + localCol : Nat) + 1 }

theorem keptEntries_eq {e : ActionMaskEntry} (h : e.position ≤ (B * S : Nat)) :
    keptEntries B S columns.length (selectedByColumn columns) e = .ok (movedEntries S columns e) := by
  unfold keptEntries movedEntries
  dsimp only
  split_ifs with hneg hlimit
  · rfl
  · omega
  · rfl

theorem mem_movedEntries {e moved : ActionMaskEntry} (hcolumns : ∀ c ∈ columns, c < S) :
    moved ∈ movedEntries S columns e ↔ ∃ i : Nat, 0 < columns.length ∧
      e.position - 1 = keptRow columns S i ∧ moved = { e with position := (i : Int) + 1 } := by
  unfold movedEntries
  split_ifs with hneg
  · simp only [not_mem_nil, false_iff, not_exists, not_and]
    intro i _ heq
    omega
  · obtain ⟨source, hsource⟩ := Int.eq_ofNat_of_zero_le (not_lt.mp hneg)
    simp only [mem_map, mem_selectedByColumn, hsource, Int.toNat_natCast]
    constructor
    · rintro ⟨k, hk, rfl⟩
      obtain ⟨hlt, hget⟩ := List.getElem?_eq_some_iff.mp hk
      have hpos : 0 < columns.length := by omega
      refine ⟨source / S * columns.length + k, hpos, ?_, rfl⟩
      have hdiv : (source / S * columns.length + k) / columns.length = source / S :=
        Nat.div_eq_of_lt_le (by omega) (by rw [add_mul, one_mul]; omega)
      have hmod : (source / S * columns.length + k) % columns.length = k := by
        rw [Nat.mul_add_mod_of_lt hlt]
      rw [keptRow, hdiv, hmod, getD_eq_getElem _ _ hlt, hget, Nat.div_add_mod']
    · rintro ⟨i, hpos, heq, rfl⟩
      have hlt : i % columns.length < columns.length := Nat.mod_lt _ hpos
      have hcol : columns.getD (i % columns.length) 0 < S := by
        rw [getD_eq_getElem _ _ hlt]
        exact hcolumns _ (getElem_mem hlt)
      have heq : source = i / columns.length * S + columns.getD (i % columns.length) 0 := by
        rw [keptRow] at heq
        exact_mod_cast heq
      have hdiv : source / S = i / columns.length :=
        Nat.div_eq_of_lt_le (by omega) (by rw [add_mul, one_mul]; omega)
      have hmod : source % S = columns.getD (i % columns.length) 0 := by
        rw [heq, Nat.mul_add_mod_of_lt hcol]
      refine ⟨i % columns.length, ?_, ?_⟩
      · rw [hmod, getD_eq_getElem _ _ hlt, getElem?_eq_getElem hlt]
      · rw [hdiv, Nat.div_add_mod']

theorem nodup_movedEntries (e : ActionMaskEntry) :
    ((movedEntries S columns e).map (·.position)).Nodup := by
  unfold movedEntries
  split_ifs with hneg
  · exact nodup_nil
  · rw [map_map]
    apply (nodup_selectedByColumn columns _).map
    intro a b hab
    have hab : ((_ + a : Nat) : Int) + 1 = ((_ + b : Nat) : Int) + 1 := hab
    omega

section

variable (hcolumns : ∀ c ∈ columns, c < S)
include hcolumns

theorem nodup_flatMap_movedEntries {es : List ActionMaskEntry}
    (hsorted : es.Pairwise fun a b => a.position < b.position) :
    ((es.flatMap (movedEntries S columns)).map (·.position)).Nodup := by
  rw [map_flatMap, nodup_flatMap]
  refine ⟨fun e _ => nodup_movedEntries e, hsorted.imp ?_⟩
  intro a b hab
  rw [Function.onFun, disjoint_left]
  intro position ha hb
  obtain ⟨moved, hmoved, rfl⟩ := mem_map.mp ha
  obtain ⟨moved', hmoved', heq⟩ := mem_map.mp hb
  obtain ⟨i, -, hi, rfl⟩ := (mem_movedEntries hcolumns).mp hmoved
  obtain ⟨i', -, hi', rfl⟩ := (mem_movedEntries hcolumns).mp hmoved'
  -- one place comes from one source position
  have hsame : i' = i := by
    have heq : (i' : Int) + 1 = (i : Int) + 1 := heq
    omega
  rw [hsame] at hi'
  omega

theorem keptRow_lt_iff {i : Nat} (hpos : 0 < columns.length) :
    keptRow columns S i < B * S ↔ i < B * columns.length := by
  have hlt : i % columns.length < columns.length := Nat.mod_lt _ hpos
  have hcol : columns.getD (i % columns.length) 0 < S := by
    rw [getD_eq_getElem _ _ hlt]
    exact hcolumns _ (getElem_mem hlt)
  have hdiv : keptRow columns S i / S = i / columns.length :=
    Nat.div_eq_of_lt_le (by rw [keptRow]; omega) (by rw [keptRow, add_mul, one_mul]; omega)
  rw [← Nat.div_lt_iff_lt_mul (by omega), ← Nat.div_lt_iff_lt_mul hpos, hdiv]

theorem keptRow_mod_mem (hpos : 0 < columns.length) (i : Nat) :
    keptRow columns S i % S ∈ columns := by
  have hlt : i % columns.length < columns.length := Nat.mod_lt _ hpos
  have hmem : columns.getD (i % columns.length) 0 ∈ columns := by
    rw [getD_eq_getElem _ _ hlt]
    exact getElem_mem hlt
  rw [keptRow, Nat.mul_add_mod_of_lt (hcolumns _ hmem)]
  exact hmem

theorem exists_keptRow {source : Nat} (hsource : source < B * S) (hcol : source % S ∈ columns) :
    ∃ i < B * columns.length, keptRow columns S i = source := by
  obtain ⟨k, hk, hget⟩ := getElem_of_mem hcol
  have hrow : keptRow columns S (source / S * columns.length + k) = source := by
    have hdiv : (source / S * columns.length + k) / columns.length = source / S :=
      Nat.div_eq_of_lt_le (by omega) (by rw [add_mul, one_mul]; omega)
    rw [keptRow, hdiv, Nat.mul_add_mod_of_lt hk, getD_eq_getElem _ _ hk, hget, Nat.div_add_mod']
  refine ⟨_, ?_, hrow⟩
  rw [← keptRow_lt_iff hcolumns (by omega), hrow]
  exact hsource

end

theorem keptRow_range {i : Nat} (hi : i < B * S) : keptRow (range S) S i = i := by
  have hpos : 0 < S := pos_of_ne_zero fun h => by simp [h] at hi
  have hlt : i % S < (range S).length := by
    rw [length_range]
    exact Nat.mod_lt _ hpos
  rw [keptRow, length_range, getD_eq_getElem _ _ hlt, getElem_range, Nat.div_add_mod']

end Move

/-! ## The sliced payload -/

section Sliced

variable {m : ActionMasks} {es : List ActionMaskEntry} {B S : Nat} {keep : LogitsToKeep}

/-- Columns in another order than all of them: the payload is made from the kept entries. -/
theorem slice_eq (hes : actionMaskEntries (some m) = .ok es)
    (hfull : ∀ p ∈ m.positions, p ≤ (B * S : Nat)) (hkeep : keep.InRange S)
    (hall : keptColumns keep S ≠ range S) :
    sliceActionMasksForLogitsToKeep (some m) B S keep =
      ofMasks (actionMasksFromEntries (B * (keptColumns keep S).length + 1 : Nat) m.vocabSize
        (es.flatMap (movedEntries S (keptColumns keep S)))) := by
  obtain ⟨hm, -⟩ := entries_eq_ok hes
  obtain ⟨r, hr, hcolumns⟩ := logitsToKeepColumns_eq hkeep
  have hsome : r = some (keptColumns keep S) := by
    cases r with
    | none => exact absurd hcolumns.symm hall
    | some columns => exact congrArg some hcolumns
  have hle : ∀ e ∈ es, e.position ≤ (B * S : Nat) := by
    intro e he
    apply hfull
    rw [← entries_positions hes]
    exact mem_map_of_mem he
  have hmap : es.mapM (keptEntries B S (keptColumns keep S).length
      (selectedByColumn (keptColumns keep S))) = .ok (es.map (movedEntries S (keptColumns keep S))) :=
    mapM_ok fun e he => keptEntries_eq (hle e he)
  rw [sliceActionMasksForLogitsToKeep, normalize_eq_ok.mpr ⟨hm, rfl⟩, hr, hsome]
  simp only [ofMasks, bind_ok, if_neg hall, hes, hmap, flatMap_def]

theorem slice_all (hm : Normalized m) (hkeep : keep.InRange S)
    (hall : keptColumns keep S = range S) :
    sliceActionMasksForLogitsToKeep (some m) B S keep = .ok (some m) := by
  obtain ⟨r, hr, hcolumns⟩ := logitsToKeepColumns_eq hkeep
  rw [sliceActionMasksForLogitsToKeep, normalize_eq_ok.mpr ⟨hm, rfl⟩, hr]
  cases r with
  | none => rfl
  | some columns =>
    rw [hall] at hcolumns
    obtain rfl : columns = range S := hcolumns
    simp only [ofMasks, bind_ok, if_true]

/-- The constraints on the kept columns. -/
theorem mem_constraints_sliced (hes : actionMaskEntries (some m) = .ok es)
    (hfull : ∀ p ∈ m.positions, p ≤ (B * S : Nat)) (hkeep : keep.InRange S)
    (hall : keptColumns keep S ≠ range S) :
    ∃ sliced lm, sliceActionMasksForLogitsToKeep (some m) B S keep = .ok sliced ∧
      actionMasksToLmHead sliced = .ok lm ∧ (∀ m' ∈ sliced, m'.vocabSize = m.vocabSize) ∧
      ∀ c, c ∈ constraints lm ↔ ∃ e ∈ es, ∃ i : Nat, 0 < (keptColumns keep S).length ∧
        e.ids ≠ [] ∧ e.position - 1 = keptRow (keptColumns keep S) S i ∧
        c = ((i : Int), e.modeAllow, e.ids.toFinset) := by
  have hcolumns := keptColumns_lt hkeep
  have hmem : ∀ moved ∈ es.flatMap (movedEntries S (keptColumns keep S)), ∃ e ∈ es, ∃ i : Nat,
      0 < (keptColumns keep S).length ∧ e.position - 1 = keptRow (keptColumns keep S) S i ∧
      moved = { e with position := (i : Int) + 1 } := by
    intro moved hmoved
    obtain ⟨e, he, hmoved⟩ := mem_flatMap.mp hmoved
    exact ⟨e, he, (mem_movedEntries hcolumns).mp hmoved⟩
  have hseqLen : ∀ moved ∈ withTokens (es.flatMap (movedEntries S (keptColumns keep S))),
      moved.position < (B * (keptColumns keep S).length + 1 : Nat) := by
    intro moved hmoved
    obtain ⟨e, he, i, hpos, hrow, rfl⟩ := hmem moved (mem_of_mem_filter hmoved)
    have hle : e.position ≤ (B * S : Nat) := by
      apply hfull
      rw [← entries_positions hes]
      exact mem_map_of_mem he
    have hlt : keptRow (keptColumns keep S) S i < B * S := by omega
    have hi := (keptRow_lt_iff hcolumns hpos).mp hlt
    simp only
    omega
  have htokens : ∀ moved ∈ withTokens (es.flatMap (movedEntries S (keptColumns keep S))),
      ∀ t ∈ moved.ids, 0 ≤ t ∧ t < m.vocabSize := by
    intro moved hmoved t ht
    obtain ⟨e, he, i, -, -, rfl⟩ := hmem moved (mem_of_mem_filter hmoved)
    exact entries_tokens hes e he t ht
  have hnodup : ((withTokens (es.flatMap (movedEntries S (keptColumns keep S)))).map
      (·.position)).Nodup :=
    (nodup_flatMap_movedEntries hcolumns (entries_sorted hes)).sublist
      (filter_sublist.map _)
  obtain ⟨sliced, lm, hsliced, hlm⟩ := fromEntries_isOk hnodup hseqLen htokens
  refine ⟨sliced, lm, ?_, hlm, ?_, fun c => ?_⟩
  · rw [slice_eq hes hfull hkeep hall, hsliced]
    rfl
  · intro m' hm'
    rw [Option.mem_def] at hm'
    subst hm'
    rw [fromEntries_eq] at hsliced
    split_ifs at hsliced with hnil
    · exact absurd (Except.ok.inj hsliced) (by simp)
    · obtain ⟨-, heq⟩ := normalize_eq_ok.mp hsliced
      rw [Option.some.inj heq]
      rfl
  · rw [mem_constraints_fromEntries hsliced hlm]
    constructor
    · rintro ⟨moved, hmoved, hids, -, rfl⟩
      obtain ⟨e, he, i, hpos, hrow, rfl⟩ := hmem moved hmoved
      exact ⟨e, he, i, hpos, hids, hrow, by simp⟩
    · rintro ⟨e, he, i, hpos, hids, hrow, rfl⟩
      refine ⟨{ e with position := (i : Int) + 1 }, ?_, hids, by simp, by simp⟩
      exact mem_flatMap.mpr ⟨e, he, (mem_movedEntries hcolumns).mpr ⟨i, hpos, hrow, rfl⟩⟩

end Sliced

/-! ## Masked logits -/

section Masked

variable {α : Type} {negInf : α}

/-- A token is masked at a position by one of the constraints. -/
def BlockedBy (cs : List Constraint) (vocabSize i v : Int) : Prop :=
  ∃ c ∈ cs, c.1 = i ∧ (vocabSize ≤ v ∨ if c.2.1 then v ∉ c.2.2 else v ∈ c.2.2)

instance (cs : List Constraint) (vocabSize i v : Int) : Decidable (BlockedBy cs vocabSize i v) :=
  inferInstanceAs (Decidable (∃ c ∈ cs, c.1 = i ∧
    (vocabSize ≤ v ∨ if c.2.1 then v ∉ c.2.2 else v ∈ c.2.2)))

theorem constraints_toLmHead {m : ActionMasks} {lm : Option LmHeadActionMasks}
    (h : actionMasksToLmHead (some m) = .ok lm) :
    constraints lm = (sourceItems m).map ActionMaskEntry.constraint := by
  obtain ⟨-, pairs, -, rfl⟩ := toLmHead_eq_ok.mp h
  rw [constraints, Option.map_some, Option.getD_some, items_lmHeadOf]

theorem apply_constraints_eq (negInf : α) {r : Option ActionMasks} {lm : Option LmHeadActionMasks}
    (h : actionMasksToLmHead r = .ok lm) {vocabSize : Int} (hv : ∀ m ∈ r, m.vocabSize = vocabSize)
    (t : Tile α) :
    ∃ t', applyLmHeadActionMasks negInf t lm 0 0 t.cols = .ok t' ∧
      ∀ i v : Nat, i < t.rows → v < t.cols → t'.get i v =
        if BlockedBy (constraints lm) vocabSize i v then negInf else t.get i v := by
  cases r with
  | none =>
    obtain rfl := Except.ok.inj h
    exact ⟨t, rfl, fun i v _ _ => by rw [if_neg]; simp [BlockedBy, constraints]⟩
  | some m =>
    obtain ⟨hm, lm, rfl, hrep, hsize, hlocalized, -⟩ := represents_toLmHead h
    have hitems := constraints_toLmHead h
    obtain ⟨t', happly, -, -, hget⟩ := apply_slice_eq negInf (t := t) hrep
      (sourceItems_sorted hm).1 hlocalized 0 (show (t.cols : Int) = t.cols - (0 : Nat) by simp)
      false
    refine ⟨t', happly, fun i v hi hcol => ?_⟩
    have hblocked : Blocked (sourceItems m) lm.vocabSize ((0 : Nat) + i) ((0 : Nat) + v) ↔
        BlockedBy (constraints (some lm)) vocabSize i v := by
      rw [hitems, hsize, hv m rfl]
      simp [Blocked, BlockedBy, ActionMaskEntry.constraint]
    rw [hget i v hi hcol]
    exact if_congr hblocked rfl rfl

/-- Masking the kept logits gives the kept part of the masked logits. -/
def KeepsMasked (negInf : α) (m : ActionMasks) (lm : Option LmHeadActionMasks) (B S : Nat)
    (keep : LogitsToKeep) : Prop :=
  ∃ sliced lm', sliceActionMasksForLogitsToKeep (some m) B S keep = .ok sliced ∧
    actionMasksToLmHead sliced = .ok lm' ∧ ∀ (vocab : Nat) (logits : Nat → Nat → α), ∃ full kept,
      applyLmHeadActionMasks negInf ⟨B * S, vocab, logits⟩ lm 0 0 vocab = .ok full ∧
      applyLmHeadActionMasks negInf ⟨B * (keptColumns keep S).length, vocab,
        fun i v => logits (keptRow (keptColumns keep S) S i) v⟩ lm' 0 0 vocab = .ok kept ∧
      ∀ i v, i < B * (keptColumns keep S).length → v < vocab →
        kept.get i v = full.get (keptRow (keptColumns keep S) S i) v

/-- The sets that Python finds for the targets without a source position. -/
def DecodesUnused (m : ActionMasks) : Prop :=
  ∀ p ∈ m.positions.zip m.setIndices, p.1 ≤ 0 →
    -(m.setModesAllow.length : Int) ≤ p.2 ∧ p.2 < m.setModesAllow.length

/-- Every constraint on a kept column has a token. -/
def KeptHaveTokens (m : ActionMasks) (columns : List Nat) (S : Nat) : Prop :=
  ∀ e ∈ sourceItems m, e.position.toNat % S ∈ columns → e.ids ≠ []

variable {m : ActionMasks} {lm : Option LmHeadActionMasks}

theorem length_internedTokenIdSets (h : Normalized m) :
    (internedTokenIdSets m).length = m.setModesAllow.length := by
  have := h.count
  rw [internedTokenIdSets, length_map, length_zip, length_dropLast, length_tail]
  omega

theorem item?_isSome_iff {β : Type} {l : List β} {i : Int} :
    (item? l i).isSome ↔ -(l.length : Int) ≤ i ∧ i < l.length := by
  unfold item?
  split_ifs with hnonneg hneg
  · rw [isSome_getElem?]
    omega
  · rw [isSome_getElem?]
    omega
  · simp only [Option.isSome_none, Bool.false_eq_true, false_iff]
    omega

theorem entryAt_isOk_iff (h : Normalized m) {p : Int × Int} :
    (∃ e, entryAt m p = .ok e) ↔
      -(m.setModesAllow.length : Int) ≤ p.2 ∧ p.2 < m.setModesAllow.length := by
  have hmode := item?_isSome_iff (l := m.setModesAllow) (i := p.2)
  have hset := item?_isSome_iff (l := internedTokenIdSets m) (i := p.2)
  rw [length_internedTokenIdSets h] at hset
  rw [← hmode, entryAt]
  cases hm : item? m.setModesAllow p.2 with
  | none => simp
  | some mode =>
    have hsome : (item? (internedTokenIdSets m) p.2).isSome := by
      rw [hset, ← hmode, hm]
      rfl
    obtain ⟨ids, hids⟩ := Option.isSome_iff_exists.mp hsome
    simp [hids]

theorem entries_isOk_iff (hlm : actionMasksToLmHead (some m) = .ok lm) :
    (∃ es, actionMaskEntries (some m) = .ok es) ↔ DecodesUnused m := by
  obtain ⟨hm, -, -, -, -, -, hindex⟩ := represents_toLmHead hlm
  constructor
  · rintro ⟨es, hes⟩ p hp -
    obtain ⟨-, hforall⟩ := entries_eq_ok hes
    obtain ⟨i, hi, rfl⟩ := getElem_of_mem hp
    exact (entryAt_isOk_iff hm).mp ⟨_, hforall.get hi (hforall.length_eq ▸ hi)⟩
  · intro hunused
    have hall : ∀ p ∈ m.positions.zip m.setIndices, ∃ e, entryAt m p = .ok e := by
      intro p hp
      rw [entryAt_isOk_iff hm]
      by_cases hneg : p.1 ≤ 0
      · exact hunused p hp hneg
      · have hkept : p ∈ keptPairs m := mem_filter.mpr ⟨hp, by simp; omega⟩
        have := hindex p hkept
        omega
    obtain ⟨es, hes⟩ := mapM_isOk hall
    refine ⟨es, ?_⟩
    rw [actionMaskEntries, normalize_eq_ok.mpr ⟨hm, rfl⟩]
    exact hes

variable {B S : Nat}

theorem sliced_blocked_iff {es : List ActionMaskEntry} (hes : actionMaskEntries (some m) = .ok es)
    (hlm : actionMasksToLmHead (some m) = .ok lm) {lm' : Option LmHeadActionMasks}
    {columns : List Nat} (hcs : ∀ c, c ∈ constraints lm' ↔ ∃ e ∈ es, ∃ i : Nat, 0 < columns.length ∧
      e.ids ≠ [] ∧ e.position - 1 = keptRow columns S i ∧
      c = ((i : Int), e.modeAllow, e.ids.toFinset)) {i : Nat} (hi : i < B * columns.length)
    (vocabSize v : Int) :
    BlockedBy (constraints lm') vocabSize i v ↔
      ∃ e ∈ sourceItems m, e.ids ≠ [] ∧ e.position = keptRow columns S i ∧
        (vocabSize ≤ v ∨ if e.modeAllow then v ∉ e.ids else v ∈ e.ids) := by
  obtain ⟨-, -, -, -, -, -, hindex⟩ := represents_toLmHead hlm
  have hpos : 0 < columns.length := by
    by_contra hzero
    simp [Nat.eq_zero_of_not_pos hzero] at hi
  rw [sourceItems_eq hes hindex]
  simp only [BlockedBy, hcs, beforeTargets, mem_map, mem_filter, decide_eq_true_iff]
  constructor
  · rintro ⟨_, ⟨e, he, k, -, hids, hrow, rfl⟩, hk, hblocked⟩
    have hk : (k : Int) = i := hk
    rw [Int.natCast_inj.mp hk] at hrow
    refine ⟨_, ⟨e, ⟨he, by omega⟩, rfl⟩, hids, hrow, ?_⟩
    simpa using hblocked
  · rintro ⟨_, ⟨e, ⟨he, -⟩, rfl⟩, hids, hrow, hblocked⟩
    refine ⟨_, ⟨e, he, i, hpos, hids, hrow, rfl⟩, rfl, ?_⟩
    simpa using hblocked

theorem full_blocked_iff (hlm : actionMasksToLmHead (some m) = .ok lm) (vocabSize i v : Int) :
    BlockedBy (constraints lm) vocabSize i v ↔ ∃ e ∈ sourceItems m, e.position = i ∧
      (vocabSize ≤ v ∨ if e.modeAllow then v ∉ e.ids else v ∈ e.ids) := by
  rw [constraints_toLmHead hlm]
  simp [BlockedBy, ActionMaskEntry.constraint]

theorem sourceItems_lt (hlm : actionMasksToLmHead (some m) = .ok lm)
    (hfull : ∀ p ∈ m.positions, p ≤ (B * S : Nat)) {e : ActionMaskEntry} (he : e ∈ sourceItems m) :
    0 ≤ e.position ∧ e.position.toNat < B * S := by
  have hnonneg := (sourceItems_sorted (represents_toLmHead hlm).1).2 e he
  obtain ⟨p, hp, rfl⟩ := mem_map.mp he
  have hle := hfull p.1 (of_mem_zip (mem_of_mem_filter hp)).1
  simp only at hnonneg ⊢
  omega

theorem entries_of_slice {keep : LogitsToKeep} {sliced : Option ActionMasks} (hm : Normalized m)
    (hkeep : keep.InRange S) (hall : keptColumns keep S ≠ range S)
    (h : sliceActionMasksForLogitsToKeep (some m) B S keep = .ok sliced) :
    ∃ es, actionMaskEntries (some m) = .ok es := by
  obtain ⟨r, hr, hcolumns⟩ := logitsToKeepColumns_eq hkeep
  rw [sliceActionMasksForLogitsToKeep, normalize_eq_ok.mpr ⟨hm, rfl⟩, hr] at h
  cases r with
  | none => exact absurd hcolumns.symm hall
  | some columns =>
    obtain rfl : columns = keptColumns keep S := hcolumns
    simp only [ofMasks, bind_ok, if_neg hall] at h
    cases hes : actionMaskEntries (some m) with
    | ok es => exact ⟨es, rfl⟩
    | error e =>
      rw [hes] at h
      exact absurd h (by simp [bind_error])

/-- Masking and keeping columns commute if the same tokens are masked. -/
theorem keepsMasked_iff {keep : LogitsToKeep} {sliced : Option ActionMasks}
    {lm' : Option LmHeadActionMasks} {other : α} (hother : other ≠ negInf)
    (hlm : actionMasksToLmHead (some m) = .ok lm)
    (hslice : sliceActionMasksForLogitsToKeep (some m) B S keep = .ok sliced)
    (hlm' : actionMasksToLmHead sliced = .ok lm')
    (hsize : ∀ m' ∈ sliced, m'.vocabSize = m.vocabSize) (hkeep : keep.InRange S) :
    KeepsMasked negInf m lm B S keep ↔ ∀ i v : Nat, i < B * (keptColumns keep S).length →
        (BlockedBy (constraints lm') m.vocabSize i v ↔
          BlockedBy (constraints lm) m.vocabSize (keptRow (keptColumns keep S) S i) v) := by
  have hself : ∀ m' ∈ some m, m'.vocabSize = m.vocabSize := by
    intro m' hm'
    rw [Option.mem_some.mp hm']
  have hrow : ∀ i, i < B * (keptColumns keep S).length →
      keptRow (keptColumns keep S) S i < B * S := by
    intro i hi
    refine (keptRow_lt_iff (keptColumns_lt hkeep) (pos_of_ne_zero fun h => ?_)).mpr hi
    rw [h] at hi
    exact absurd hi (Nat.not_lt_zero i)
  constructor
  · rintro ⟨sliced₁, lm₁, hslice₁, hlm₁, hmask⟩ i v hi
    obtain rfl : sliced₁ = sliced := Except.ok.inj (hslice₁.symm.trans hslice)
    obtain rfl : lm₁ = lm' := Except.ok.inj (hlm₁.symm.trans hlm')
    obtain ⟨full, kept, hfull, hkept, hget⟩ := hmask (v + 1) fun _ _ => other
    obtain ⟨full₁, hfull₁, hgetFull⟩ := apply_constraints_eq negInf hlm hself
      ⟨B * S, v + 1, fun _ _ => other⟩
    obtain ⟨kept₁, hkept₁, hgetKept⟩ := apply_constraints_eq negInf hlm' hsize
      ⟨B * (keptColumns keep S).length, v + 1, fun _ _ => other⟩
    obtain rfl : full₁ = full := Except.ok.inj (hfull₁.symm.trans hfull)
    obtain rfl : kept₁ = kept := Except.ok.inj (hkept₁.symm.trans hkept)
    have hv : v < v + 1 := Nat.lt_succ_self v
    have heq := hget i v hi hv
    rw [hgetKept i v hi hv, hgetFull _ v (hrow i hi) hv] at heq
    by_cases hleft : BlockedBy (constraints lm₁) m.vocabSize i v
    · rw [if_pos hleft] at heq
      refine ⟨fun _ => ?_, fun _ => hleft⟩
      by_contra hright
      rw [if_neg hright] at heq
      exact hother heq.symm
    · rw [if_neg hleft] at heq
      refine ⟨fun h => absurd h hleft, fun hright => ?_⟩
      rw [if_pos hright] at heq
      exact absurd heq hother
  · intro hsame
    refine ⟨sliced, lm', hslice, hlm', fun vocab logits => ?_⟩
    obtain ⟨full, hfull, hgetFull⟩ := apply_constraints_eq negInf hlm hself
      ⟨B * S, vocab, logits⟩
    obtain ⟨kept, hkept, hgetKept⟩ := apply_constraints_eq negInf hlm' hsize
      ⟨B * (keptColumns keep S).length, vocab,
        fun i v => logits (keptRow (keptColumns keep S) S i) v⟩
    refine ⟨full, kept, hfull, hkept, fun i v hi hv => ?_⟩
    rw [hgetKept i v hi hv, hgetFull _ v (hrow i hi) hv]
    exact if_congr (hsame i v hi) rfl rfl

/-- Masking and keeping columns commute, if and only if all columns are kept in their order, or
every constraint on a kept column has a token and the sets of the unused targets exist. -/
theorem slice_masks_iff (hlm : actionMasksToLmHead (some m) = .ok lm) {B S : Nat}
    (hfull : ∀ p ∈ m.positions, p ≤ (B * S : Nat)) {keep : LogitsToKeep} (hkeep : keep.InRange S)
    {other : α} (hother : other ≠ negInf) :
    KeepsMasked negInf m lm B S keep ↔ keptColumns keep S = range S ∨
      (DecodesUnused m ∧ KeptHaveTokens m (keptColumns keep S) S) := by
  obtain ⟨hm, -⟩ := represents_toLmHead hlm
  have hcolumns := keptColumns_lt hkeep
  by_cases hall : keptColumns keep S = range S
  · refine ⟨fun _ => .inl hall, fun _ => ?_⟩
    rw [keepsMasked_iff hother hlm (slice_all hm hkeep hall) hlm
      (fun m' hm' => by rw [Option.mem_some.mp hm']) hkeep]
    intro i v hi
    rw [hall, length_range] at hi
    rw [hall, keptRow_range hi]
  · constructor
    · intro hmask
      obtain ⟨es, hes⟩ : ∃ es, actionMaskEntries (some m) = .ok es := by
        obtain ⟨sliced, lm', hslice, -⟩ := hmask
        exact entries_of_slice hm hkeep hall hslice
      obtain ⟨sliced, lm', hslice, hlm', hsize, hcs⟩ := mem_constraints_sliced hes hfull hkeep hall
      rw [keepsMasked_iff hother hlm hslice hlm' hsize hkeep] at hmask
      refine .inr ⟨(entries_isOk_iff hlm).mp ⟨es, hes⟩, fun e he hcol hids => ?_⟩
      obtain ⟨hnonneg, hlt⟩ := sourceItems_lt hlm hfull he
      obtain ⟨i, hi, hrow⟩ := exists_keptRow hcolumns hlt hcol
      have hposition : e.position = (keptRow (keptColumns keep S) S i : Int) := by omega
      -- a token behind the vocabulary is masked at the source position
      have hright : BlockedBy (constraints lm) m.vocabSize (keptRow (keptColumns keep S) S i)
          m.vocabSize.toNat := (full_blocked_iff hlm _ _ _).mpr ⟨e, he, hposition, .inl (by omega)⟩
      obtain ⟨e', he', hids', hposition', -⟩ :=
        (sliced_blocked_iff hes hlm hcs hi _ _).mp ((hmask i _ hi).mpr hright)
      have hnodup : ((sourceItems m).map (·.position)).Nodup := by
        rw [Nodup, pairwise_map]
        exact (sourceItems_sorted hm).1.imp fun hlt => ne_of_lt hlt
      have hsame : e' = e := inj_on_of_nodup_map hnodup he' he (hposition'.trans hposition.symm)
      exact hids' (hsame ▸ hids)
    · rintro (h | ⟨hunused, htokens⟩)
      · exact absurd h hall
      · obtain ⟨es, hes⟩ := (entries_isOk_iff hlm).mpr hunused
        obtain ⟨sliced, lm', hslice, hlm', hsize, hcs⟩ :=
          mem_constraints_sliced hes hfull hkeep hall
        rw [keepsMasked_iff hother hlm hslice hlm' hsize hkeep]
        intro i v hi
        rw [sliced_blocked_iff hes hlm hcs hi, full_blocked_iff hlm]
        constructor
        · rintro ⟨e, he, -, hposition, hblocked⟩
          exact ⟨e, he, hposition, hblocked⟩
        · rintro ⟨e, he, hposition, hblocked⟩
          refine ⟨e, he, htokens e he ?_, hposition, hblocked⟩
          have hpos : 0 < (keptColumns keep S).length := by
            by_contra hzero
            simp [Nat.eq_zero_of_not_pos hzero] at hi
          rw [hposition, Int.toNat_natCast]
          exact keptRow_mod_mem hcolumns hpos i

end Masked

theorem slice_masks_iff_repeated :
    ∃ lm, actionMasksToLmHead (some twoConstraints) = .ok lm ∧
      (KeepsMasked (none : Option Nat) twoConstraints lm 1 4 (.columns [-2, 0, 2]) ↔
        keptColumns (.columns [-2, 0, 2]) 4 = range 4 ∨ (DecodesUnused twoConstraints ∧
          KeptHaveTokens twoConstraints (keptColumns (.columns [-2, 0, 2]) 4) 4)) := by
  obtain ⟨lm, hlm⟩ : ∃ lm, actionMasksToLmHead (some twoConstraints) = .ok lm := ⟨_, rfl⟩
  have hfull : ∀ p ∈ twoConstraints.positions, p ≤ (1 * 4 : Nat) := by decide
  have hkeep : (LogitsToKeep.columns [-2, 0, 2]).InRange 4 := by
    intro c hc
    simp only [mem_cons, not_mem_nil, or_false] at hc
    omega
  exact ⟨lm, hlm, slice_masks_iff hlm hfull hkeep (Option.some_ne_none 0)⟩

/-- No token is allowed behind the second column. -/
def nothingAllowed : ActionMasks where
  seqLen := 3
  vocabSize := 1
  positions := [2]
  setIndices := [0]
  setModesAllow := [true]
  setOffsets := [0, 0]
  tokenIds := []

/-- The last column is masked in the full logits and not in the kept ones. -/
theorem slice_drops_empty_set :
    ∃ lm sliced lm' full kept, actionMasksToLmHead (some nothingAllowed) = .ok lm ∧
      sliceActionMasksForLogitsToKeep (some nothingAllowed) 1 2 (.count 1) = .ok sliced ∧
      actionMasksToLmHead sliced = .ok lm' ∧
      applyLmHeadActionMasks none ⟨2, 1, fun _ _ => some 0⟩ lm 0 0 1 = .ok full ∧
      applyLmHeadActionMasks none ⟨1, 1, fun _ _ => some 0⟩ lm' 0 0 1 = .ok kept ∧
      full.get 1 0 = none ∧ kept.get 0 0 = some 0 :=
  ⟨_, _, _, _, _, rfl, rfl, rfl, rfl, rfl, rfl, rfl⟩

end ArcticPlatform.LmHeadMasks
