import ArcticPlatform.Library.Dict
import ArcticPlatform.Library.Tensors
import Mathlib.Data.List.Sort

/-!
# Action masks

An embedding of the action masks of the model layer.  A payload constrains target
positions of a sequence: each one refers to an interned set of tokens, which are the
allowed or the denied ones.  Payloads of rows are packed into one, and a payload is
turned into masks for the logits of the LM head, where the constraint on a target
sits at the position before it.

The values of a payload are integers: `_require_int` and `_require_1d_array`
are left out.  `action_masks_from_entries` also remembers the set of a token tuple
by the identity of the tuple, which gives the same set as looking it up by its value.
-/

namespace ArcticPlatform.LmHeadMasks

open Dicts Slices Tensors

/-! ## Payloads -/

/-- What the functions raise; the first seven are the `ValueError`s of
`normalize_action_masks`. -/
inductive Error where
  | positionsSetIndices
  | setOffsetsCount
  | setOffsetsStart
  | setOffsetsEnd
  | positionsUnsorted
  | positionsExceedSeqLen
  | tokenIdsExceedVocabSize
  | listIndex
  | tensor (e : TensorError)
  | rowCount
  | vocabSizes
  | notContiguous
  deriving DecidableEq

/-- `ActionMasks`. -/
structure ActionMasks where
  seqLen : Int
  vocabSize : Int
  positions : List Int
  setIndices : List Int
  setModesAllow : List Bool
  setOffsets : List Int
  tokenIds : List Int
  deriving DecidableEq

/-- `normalize_action_masks`; positions that are sorted and unique are strictly increasing. -/
def normalizeActionMasks : Option ActionMasks → Except Error (Option ActionMasks)
  | none => .ok none
  | some m =>
    if m.positions.length ≠ m.setIndices.length then .error .positionsSetIndices
    else if m.setOffsets.length ≠ m.setModesAllow.length + 1 then .error .setOffsetsCount
    else if m.setOffsets.head?.any (· ≠ 0) then .error .setOffsetsStart
    else if m.setOffsets.getLast?.any (· ≠ (m.tokenIds.length : Int)) then .error .setOffsetsEnd
    else if ¬ m.positions.Pairwise (· < ·) then .error .positionsUnsorted
    else if m.positions.getLast?.any (m.seqLen ≤ ·) then .error .positionsExceedSeqLen
    else if m.tokenIds.any fun t => t < 0 ∨ m.vocabSize ≤ t then .error .tokenIdsExceedVocabSize
    else .ok (some m)

/-- `_interned_token_id_sets`. -/
def internedTokenIdSets (m : ActionMasks) : List (List Int) :=
  (m.setOffsets.dropLast.zip m.setOffsets.tail).map fun p => sliceInt m.tokenIds p.1 p.2

/-- `ActionMaskEntry`. -/
structure ActionMaskEntry where
  position : Int
  modeAllow : Bool
  ids : List Int
  deriving DecidableEq

/-- The entry of a position with a set index. -/
def entryAt (m : ActionMasks) (p : Int × Int) : Except Error ActionMaskEntry :=
  match item? m.setModesAllow p.2, item? (internedTokenIdSets m) p.2 with
  | some modeAllow, some ids => .ok ⟨p.1, modeAllow, ids⟩
  | _, _ => .error .listIndex

/-- `action_mask_entries`. -/
def actionMaskEntries (actionMasks : Option ActionMasks) : Except Error (List ActionMaskEntry) := do
  match ← normalizeActionMasks actionMasks with
  | none => .ok []
  | some m => (m.positions.zip m.setIndices).mapM (entryAt m)

/-- The lists that `action_masks_from_entries` fills. -/
structure Interning where
  positions : List Int
  setIndices : List Int
  setKeys : Dict (Bool × List Int) Nat
  setModesAllow : List Bool
  setOffsets : List Int
  tokenIds : List Int

/-- Nothing is interned. -/
def Interning.init : Interning := ⟨[], [], .empty, [], [0], []⟩

/-- One entry: its set is interned unless an equal one is. -/
def Interning.add (s : Interning) (e : ActionMaskEntry) : Interning :=
  let ids := e.ids.insertionSort (· ≤ ·)
  if ids = [] then s
  else match s.setKeys.get? (e.modeAllow, ids) with
    | some setIndex =>
      { s with
        positions := s.positions ++ [e.position]
        setIndices := s.setIndices ++ [(setIndex : Int)] }
    | none =>
      let setIndex := s.setModesAllow.length
      { positions := s.positions ++ [e.position]
        setIndices := s.setIndices ++ [(setIndex : Int)]
        setKeys := s.setKeys.set (e.modeAllow, ids) setIndex
        setModesAllow := s.setModesAllow ++ [e.modeAllow]
        setOffsets := s.setOffsets ++ [((s.tokenIds ++ ids).length : Int)]
        tokenIds := s.tokenIds ++ ids }

/-- `sorted(entries, key=lambda item: item[0])`. -/
def byPosition (entries : List ActionMaskEntry) : List ActionMaskEntry :=
  entries.insertionSort fun a b => a.position ≤ b.position

/-- `action_masks_from_entries`. -/
def actionMasksFromEntries (seqLen vocabSize : Int) (entries : List ActionMaskEntry) :
    Except Error (Option ActionMasks) :=
  let s := (byPosition entries).foldl Interning.add .init
  if s.positions = [] then .ok none
  else normalizeActionMasks (some { s with seqLen, vocabSize })

/-! ## Packing rows -/

/-- What the loops over the rows carry. -/
structure Packing where
  offset : Nat
  vocabSize : Option Int
  entries : List ActionMaskEntry

/-- No row is packed. -/
def Packing.init : Packing := ⟨0, none, []⟩

/-- One row, with the entries that it contributes. -/
def Packing.add (s : Packing) (masks : Option ActionMasks) (width : Nat)
    (entriesOf : ActionMasks → Except Error (List ActionMaskEntry)) : Except Error Packing := do
  match ← normalizeActionMasks masks with
  | none => .ok { s with offset := s.offset + width }
  | some m =>
    if s.vocabSize.any (· ≠ m.vocabSize) then .error .vocabSizes
    else do
      let entries ← entriesOf m
      .ok
        { offset := s.offset + width
          vocabSize := some (s.vocabSize.getD m.vocabSize)
          entries := s.entries ++ entries }

/-- What a row contributes in `pack_row_action_masks`. -/
def rowEntries (offset length : Nat) (m : ActionMasks) : Except Error (List ActionMaskEntry) := do
  let entries ← actionMaskEntries (some m)
  .ok ((entries.filter fun e => e.position < (length : Int)).map fun e =>
    { e with position := e.position + offset })

/-- `pack_row_action_masks`. -/
def packRowActionMasks (rowMasks : List (Option ActionMasks)) (lengths : List Nat) :
    Except Error (Option ActionMasks) :=
  if rowMasks.length ≠ lengths.length then .error .rowCount
  else do
    let s ← (rowMasks.zip lengths).foldlM
      (fun s row => s.add row.1 row.2 (rowEntries s.offset row.2)) Packing.init
    match s.vocabSize with
    | none => .ok none
    | some vocabSize => actionMasksFromEntries s.offset vocabSize s.entries

/-- What a row contributes in `pack_window_row_action_masks`; `piece` has its positions in the
window. -/
def windowEntries (offset : Nat) (piece : List Int) (m : ActionMasks) :
    Except Error (List ActionMaskEntry) :=
  match piece.head?, piece.getLast? with
  | some globalStart, some globalLast =>
    if globalLast + 1 - globalStart ≠ piece.length then .error .notContiguous
    else do
      let entries ← actionMaskEntries (some m)
      .ok ((entries.filter fun e => 0 ≤ e.position - 1 - globalStart ∧
          e.position - 1 - globalStart < piece.length).map fun e =>
        { e with position := offset + (e.position - 1 - globalStart) + 1 })
  | _, _ => .ok []

/-- `pack_window_row_action_masks`. -/
def packWindowRowActionMasks (rowMasks : List (Option ActionMasks))
    (positionPieces : List (List Int)) : Except Error (Option ActionMasks) := do
  let s ← (rowMasks.zip positionPieces).foldlM
    (fun s row => s.add row.1 row.2.length (windowEntries s.offset row.2)) Packing.init
  if rowMasks.length ≠ positionPieces.length then .error .rowCount
  else match s.vocabSize with
    | none => .ok none
    | some vocabSize => actionMasksFromEntries (s.offset + 1) vocabSize s.entries

/-! ## Masks of the LM head -/

/-- `LmHeadActionMasks`. -/
structure LmHeadActionMasks where
  sourcePositions : List Int
  setIndices : List Int
  setModesAllow : List Bool
  setOffsets : List Int
  tokenIds : List Int
  vocabSize : Int
  allowSourcePositions : List Int
  allowPairSourcePositions : List Int
  allowPairTokenIds : List Int
  denyPairSourcePositions : List Int
  denyPairTokenIds : List Int
  localized : Bool := false
  deriving DecidableEq

/-- `has_constraints`. -/
def LmHeadActionMasks.hasConstraints (lm : LmHeadActionMasks) : Bool := lm.sourcePositions ≠ []

/-- What `_expand_lm_head_action_mask_pairs` returns. -/
structure ExpandedPairs where
  allowSourcePositions : List Int
  allowPairSourcePositions : List Int
  allowPairTokenIds : List Int
  denyPairSourcePositions : List Int
  denyPairTokenIds : List Int

/-- `_expand_lm_head_action_mask_pairs`. -/
def expandLmHeadActionMaskPairs (sourcePositions setIndices : List Int) (setModesAllow : List Bool)
    (setOffsets tokenIds : List Int) : Except TensorError ExpandedPairs :=
  if sourcePositions = [] then .ok ⟨[], [], [], [], []⟩
  else do
    let positionModesAllow ← indexSelect setModesAllow setIndices
    let allowSourcePositions := maskSelect sourcePositions positionModesAllow
    let setStarts ← indexSelect setOffsets setIndices
    let setEnds ← indexSelect setOffsets (setIndices.map (· + 1))
    let setLengths := List.zipWith (· - ·) setEnds setStarts
    let pairSourcePositions ← repeatInterleave sourcePositions setLengths
    let pairSetStarts ← repeatInterleave setStarts setLengths
    let pairGroupStarts ←
      repeatInterleave (List.zipWith (· - ·) (cumsum setLengths) setLengths) setLengths
    let pairTokenOffsets := List.zipWith (· - ·) (arange pairSourcePositions.length) pairGroupStarts
    let pairTokenIds ← indexSelect tokenIds (List.zipWith (· + ·) pairSetStarts pairTokenOffsets)
    let pairModesAllow ← repeatInterleave positionModesAllow setLengths
    .ok
      { allowSourcePositions := allowSourcePositions
        allowPairSourcePositions := maskSelect pairSourcePositions pairModesAllow
        allowPairTokenIds := maskSelect pairTokenIds pairModesAllow
        denyPairSourcePositions := maskSelect pairSourcePositions (pairModesAllow.map not)
        denyPairTokenIds := maskSelect pairTokenIds (pairModesAllow.map not) }

/-- `action_masks_to_lm_head`. -/
def actionMasksToLmHead (actionMasks : Option ActionMasks) :
    Except Error (Option LmHeadActionMasks) := do
  match ← normalizeActionMasks actionMasks with
  | none => .ok none
  | some m =>
    let positions := m.positions.map (· - 1)
    let kept := positions.map fun p => decide (0 ≤ p)
    let sourcePositions := maskSelect positions kept
    let setIndices := maskSelect m.setIndices kept
    match expandLmHeadActionMaskPairs sourcePositions setIndices m.setModesAllow m.setOffsets
        m.tokenIds with
    | .error e => .error (.tensor e)
    | .ok pairs => .ok (some { m, pairs with sourcePositions, setIndices })

/-! ## Tiles -/

/-- `_constrained_slice`. -/
def constrainedSlice (sourcePositions : List Int) (tokenStart tokenEnd : Int) : Nat × Nat :=
  (searchsorted sourcePositions tokenStart, searchsorted sourcePositions tokenEnd)

/-- The entries of `xs` at the positions of `sourcePositions` that fall in a token tile. -/
def localize {α : Type} (sourcePositions : List Int) (xs : List α) (tokenStart tokenEnd : Int) :
    List α :=
  let bounds := constrainedSlice sourcePositions tokenStart tokenEnd
  slice xs bounds.1 bounds.2

/-- `_empty_localized_lm_head_masks`. -/
def emptyLocalizedLmHeadMasks (lm : LmHeadActionMasks) : LmHeadActionMasks :=
  { lm with
    sourcePositions := []
    setIndices := []
    allowSourcePositions := []
    allowPairSourcePositions := []
    allowPairTokenIds := []
    denyPairSourcePositions := []
    denyPairTokenIds := []
    localized := true }

/-- `slice_lm_head_action_masks`. -/
def sliceLmHeadActionMasks (lm : LmHeadActionMasks) (tokenStart tokenEnd : Int) :
    LmHeadActionMasks :=
  if lm.localized ∨ ¬ lm.hasConstraints then lm
  else
    let bounds := constrainedSlice lm.sourcePositions tokenStart tokenEnd
    if bounds.1 = bounds.2 then emptyLocalizedLmHeadMasks lm
    else
      let shift (positions : List Int) : List Int :=
        (localize positions positions tokenStart tokenEnd).map (· - tokenStart)
      { lm with
        sourcePositions := shift lm.sourcePositions
        setIndices := localize lm.sourcePositions lm.setIndices tokenStart tokenEnd
        allowSourcePositions := shift lm.allowSourcePositions
        allowPairSourcePositions := shift lm.allowPairSourcePositions
        allowPairTokenIds :=
          localize lm.allowPairSourcePositions lm.allowPairTokenIds tokenStart tokenEnd
        denyPairSourcePositions := shift lm.denyPairSourcePositions
        denyPairTokenIds :=
          localize lm.denyPairSourcePositions lm.denyPairTokenIds tokenStart tokenEnd
        localized := true }

/-- A tile of logits. -/
structure Tile (α : Type) where
  rows : Nat
  cols : Nat
  get : Nat → Nat → α

/-- An index into a dimension, counted from the end when negative. -/
def resolve (n : Nat) (i : Int) : Except TensorError Nat :=
  if 0 ≤ i ∧ i < n then .ok i.toNat
  else if -n ≤ i ∧ i < 0 then .ok (i + n).toNat
  else .error .indexOutOfRange

namespace Tile

variable {α : Type}

/-- `t[rows, start:] = v`. -/
def fillRows (t : Tile α) (rows : List Int) (start : Int) (v : α) : Except TensorError (Tile α) := do
  let rs ← rows.mapM (resolve t.rows)
  .ok { t with get := fun i j => if i ∈ rs ∧ clip t.cols start ≤ j then v else t.get i j }

/-- The places `t[rows, columns]`. -/
def places (t : Tile α) (rows columns : List Int) : Except TensorError (List (Nat × Nat)) := do
  let rs ← rows.mapM (resolve t.rows)
  let cs ← columns.mapM (resolve t.cols)
  .ok (rs.zip cs)

/-- Write values at places, one after the other. -/
def write (t : Tile α) (values : List ((Nat × Nat) × α)) : Tile α :=
  values.foldl (fun t p =>
    { t with get := fun i j => if (i, j) = p.1 then p.2 else t.get i j }) t

end Tile

section Apply

variable {α : Type} (negInf : α)

/-- Blank the columns behind the vocabulary. -/
def blankInvalid (t : Tile α) (constrainedRows : List Int) (vocabSize : Int)
    (vocabStart vocabEnd : Nat) : Except TensorError (Tile α) :=
  let invalidVocabStart := max (vocabStart : Int) vocabSize
  if invalidVocabStart < vocabEnd then
    t.fillRows constrainedRows (invalidVocabStart - vocabStart) negInf
  else .ok t

/-- The part of `apply_lm_head_action_masks_` for masks that are localized to the tile. -/
def applyLocalized (t : Tile α) (lm : LmHeadActionMasks) (vocabStart vocabEnd : Nat) :
    Except TensorError (Tile α) := do
  let t ← blankInvalid negInf t lm.sourcePositions lm.vocabSize vocabStart vocabEnd
  let inVocab (tokenIds : List Int) : List Bool :=
    tokenIds.map fun v => decide ((vocabStart : Int) ≤ v ∧ v < vocabEnd)
  let allowPlaces ← t.places
    (maskSelect lm.allowPairSourcePositions (inVocab lm.allowPairTokenIds))
    ((maskSelect lm.allowPairTokenIds (inVocab lm.allowPairTokenIds)).map (· - vocabStart))
  let allowedValues := allowPlaces.map fun p => t.get p.1 p.2
  let t ← t.fillRows lm.allowSourcePositions 0 negInf
  let t := t.write (allowPlaces.zip allowedValues)
  let denyPlaces ← t.places
    (maskSelect lm.denyPairSourcePositions (inVocab lm.denyPairTokenIds))
    ((maskSelect lm.denyPairTokenIds (inVocab lm.denyPairTokenIds)).map (· - vocabStart))
  .ok (t.write (denyPlaces.map fun p => (p, negInf)))

/-- `apply_lm_head_action_masks_`. -/
def applyLmHeadActionMasks (t : Tile α) (lm : Option LmHeadActionMasks) (tokenStart : Nat)
    (vocabStart vocabEnd : Nat) : Except TensorError (Tile α) :=
  match lm with
  | none => .ok t
  | some lm =>
    if ¬ lm.hasConstraints then .ok t
    else
      let lm := if lm.localized then lm
        else sliceLmHeadActionMasks lm tokenStart (tokenStart + t.rows)
      if ¬ lm.hasConstraints then .ok t else applyLocalized negInf t lm vocabStart vocabEnd

end Apply

end ArcticPlatform.LmHeadMasks
