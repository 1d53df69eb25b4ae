import ArcticPlatform.Library.NdTensors

/-!
# Prediction targets of a request

A distillation request that brings no labels gets them from its input tokens: at each position
the next token, and the ignore index where the next position is none that its sequence predicts.
Sequences end with the rows, with the boundaries of packed rows, and where the position ids do
not go on.

Main results:

- Theorem `sameSegment_iff`: positions that are no last ones stay in their packed row.
- Theorem `synthesizeRequestLabels_iff`: when masks and labels are those of the sequences.
-/

namespace ArcticPlatform.Distillation

open Tensors Results List

/-! ## Tensors by position -/

section Positions

variable {α β : Type}

/-- `t.shape[-1]`. -/
def width (t : Tensor α) : Nat := t.shape.getLastD 1

/-- The value at a position in row-major order. -/
def valueAt [Inhabited α] (t : Tensor α) (i : Nat) : α := t.data.getD i default

/-- The tensor with given values. -/
def pointwise (shape : List Nat) (f : Nat → α) : Tensor α where
  shape := shape
  data := (range shape.prod).map f
  size := by simp

/-- The position whose value `torch.roll(shifts=-1, dims=-1)` moves to a position. -/
def rollIndex (w i : Nat) : Nat := if i % w + 1 = w then i - i % w else i + 1

/-- `torch.roll(t, shifts=-1, dims=-1)`. -/
def roll [Inhabited α] (t : Tensor α) : Tensor α :=
  pointwise t.shape fun i => valueAt t (rollIndex (width t) i)

/-- An operation on two tensors of one shape. -/
def zip [Inhabited α] [Inhabited β] {γ : Type} (f : α → β → γ) (t : Tensor α) (u : Tensor β) :
    Tensor γ := pointwise t.shape fun i => f (valueAt t i) (valueAt u i)

theorem valueAt_pointwise [Inhabited α] {shape : List Nat} {f : Nat → α} {i : Nat}
    (hi : i < shape.prod) : valueAt (pointwise shape f) i = f i := by
  simp [valueAt, pointwise, hi]

theorem valueAt_zip [Inhabited α] [Inhabited β] {γ : Type} [Inhabited γ] {f : α → β → γ}
    {t : Tensor α} {u : Tensor β} {i : Nat} (hi : i < t.shape.prod) :
    valueAt (zip f t u) i = f (valueAt t i) (valueAt u i) := valueAt_pointwise hi

end Positions

/-! ## The functions -/

/-- The tensors of one dictionary of a request. -/
structure Container where
  inputIds : Option (Tensor Int) := none
  attentionMask : Option (Tensor Int) := none
  cuSeqlens : Option (Tensor Int) := none
  positionIds : Option (Tensor Int) := none
  labels : Option (Tensor Int) := none

/-- A request: the dictionaries of `_request_containers`, or a batch of microbatches. -/
inductive Request where
  | single (containers : List Container)
  | microbatches (batch : List Request)

/-- `_request_tensor`. -/
def requestTensor (name : Container → Option (Tensor Int)) (containers : List Container) :
    Option (Tensor Int) := containers.findSome? name

/-- A tensor of the request that has the shape of the input tokens. -/
def requestTensorLike (name : Container → Option (Tensor Int)) (containers : List Container)
    (inputIds : Tensor Int) : Option (Tensor Int) :=
  (requestTensor name containers).filter fun t => t.shape = inputIds.shape

/-- `position_ids.eq(expected).cumprod(dim=-1)`: the rows as far as their positions count on. -/
def countsOn (positionIds : Tensor Int) : Tensor Bool :=
  let w := width positionIds
  pointwise positionIds.shape fun i =>
    (range (i % w + 1)).all fun k =>
      valueAt positionIds (i - i % w + k) == valueAt positionIds (i - i % w) + k

/-- `_request_token_validity`. -/
def requestTokenValidity (containers : List Container) (inputIds : Tensor Int) : Tensor Bool :=
  match requestTensorLike (·.attentionMask) containers inputIds with
  | some attentionMask => pointwise inputIds.shape fun i => valueAt attentionMask i != 0
  | none =>
    match requestTensor (·.cuSeqlens) containers,
      requestTensorLike (·.positionIds) containers inputIds with
    | none, some positionIds => countsOn positionIds
    | _, _ => pointwise inputIds.shape fun _ => true

/-- `flat_targets[sequence_ends] = False`. -/
def clear (targets : Tensor Bool) (sequenceEnds : List Int) : Tensor Bool :=
  pointwise targets.shape fun i => valueAt targets i && !sequenceEnds.contains (i : Int)

/-- The targets of `_prediction_target_mask` in front of the packed boundaries. -/
def rowTargets (containers : List Container) (inputIds : Tensor Int) : Tensor Bool :=
  let valid := requestTokenValidity containers inputIds
  let nextValid := roll valid
  let targets := zip (· && ·) valid nextValid
  let targets :=
    match requestTensorLike (·.positionIds) containers inputIds with
    | some positionIds =>
      zip (· && ·) targets (zip (fun next p => next == p + 1) (roll positionIds) positionIds)
    | none => targets
  if 0 < width targets then
    pointwise targets.shape fun i =>
      if i % width targets + 1 = width targets then false else valueAt targets i
  else targets

/-- What `torch.roll` raises for a tensor without dimensions. -/
def noDimensions : String := "Dimension specified as -1 but tensor has no dimensions"

/-- `_prediction_target_mask`. -/
def predictionTargetMask (containers : List Container) (inputIds : Tensor Int) :
    Except String (Tensor Bool) :=
  if inputIds.shape = [] then
    -- the validity of the tokens reads `position_ids.shape[-1]` first
    .error (match requestTensorLike (·.attentionMask) containers inputIds,
        requestTensor (·.cuSeqlens) containers, requestTensorLike (·.positionIds) containers inputIds with
      | none, none, some _ => "tuple index out of range"
      | _, _, _ => noDimensions)
  else
    let targets := rowTargets containers inputIds
    match requestTensor (·.cuSeqlens) containers with
    | none => .ok targets
    | some cuSeqlens =>
      if 1 < cuSeqlens.data.length then
        let sequenceEnds := cuSeqlens.data.tail.map (· - 1)
        if sequenceEnds.any fun e => decide (e < 0) || decide ((targets.data.length : Int) ≤ e) then
          .error "cu_seqlens contains a sequence boundary outside input_ids"
        else .ok (clear targets sequenceEnds)
      else .ok targets

/-- The labels that `_synthesize_request_labels` builds. -/
def synthesizeLabels (containers : List Container) (inputIds : Tensor Int) :
    Except String (Tensor Int) :=
  if inputIds.shape = [] then .error noDimensions
  else
    let labels := roll inputIds
    if width labels = 0 then .ok labels
    else do
      let targets ← predictionTargetMask containers inputIds
      .ok (zip (fun target label => if target then label else -100) targets labels)

/-- `input_container["labels"] = labels`. -/
def setLabels (labels : Tensor Int) : List Container → List Container
  | [] => []
  | c :: containers =>
    if c.inputIds.isSome then { c with labels := some labels } :: containers
    else c :: setLabels labels containers

mutual

/-- `_synthesize_request_labels`. -/
def synthesizeRequestLabels : Request → Except String Request
  | .single containers =>
    if containers.any (·.labels.isSome) then .ok (.single containers)
    else
      match requestTensor (·.inputIds) containers with
      | none => .ok (.single containers)
      | some inputIds => do
        let labels ← synthesizeLabels containers inputIds
        .ok (.single (setLabels labels containers))
  | .microbatches batch => do
    let batch ← synthesizeEach batch
    .ok (.microbatches batch)

/-- The loop over the microbatches. -/
def synthesizeEach : List Request → Except String (List Request)
  | [] => .ok []
  | microbatch :: batch => do
    let microbatch ← synthesizeRequestLabels microbatch
    let batch ← synthesizeEach batch
    .ok (microbatch :: batch)

end

/-! ## Sequences -/

/-- Two positions are in one packed row. -/
def SameSegment (cuSeqlens : List Int) (i j : Nat) : Prop :=
  ∃ k, k + 1 < cuSeqlens.length ∧ cuSeqlens.getD k 0 ≤ i ∧ i < cuSeqlens.getD (k + 1) 0 ∧
    cuSeqlens.getD k 0 ≤ j ∧ j < cuSeqlens.getD (k + 1) 0

/-- Boundaries that pack a number of tokens: rows one after the other, possibly empty ones. -/
structure PacksTokens (cuSeqlens : List Int) (n : Nat) : Prop where
  rows : 2 ≤ cuSeqlens.length
  start : cuSeqlens.getD 0 0 = 0
  sorted : ∀ k < cuSeqlens.length - 1, cuSeqlens.getD k 0 ≤ cuSeqlens.getD (k + 1) 0
  covers : cuSeqlens.getD (cuSeqlens.length - 1) 0 = n

/-- The next position belongs to the same sequence: the row goes on, and so do the packed row and
the position ids where there are any. -/
structure SameSequence (containers : List Container) (inputIds : Tensor Int) (i : Nat) : Prop where
  row : i % width inputIds + 1 ≠ width inputIds
  segment : ∀ cuSeqlens ∈ requestTensor (·.cuSeqlens) containers,
    SameSegment cuSeqlens.data i (i + 1)
  positions : ∀ positionIds ∈ requestTensorLike (·.positionIds) containers inputIds,
    valueAt positionIds (i + 1) = valueAt positionIds i + 1

/-- A position predicts the next one: both are valid tokens of one sequence. -/
def IsTarget (containers : List Container) (inputIds : Tensor Int) (i : Nat) : Prop :=
  SameSequence containers inputIds i ∧ valueAt (requestTokenValidity containers inputIds) i = true ∧
    valueAt (requestTokenValidity containers inputIds) (i + 1) = true

/-! ## Positions -/

section Positions

variable {α : Type} {t : Tensor α} {i : Nat}

theorem width_dvd (hshape : t.shape ≠ []) : width t ∣ t.shape.prod := by
  obtain ⟨lead, w, hlead⟩ := eq_nil_or_concat t.shape |>.resolve_left hshape
  rw [width, hlead, concat_eq_append, prod_append, getLastD_concat]
  simp

theorem valueAt_roll [Inhabited α] (hi : i < t.shape.prod) (hrow : i % width t + 1 ≠ width t) :
    valueAt (roll t) i = valueAt t (i + 1) := by
  rw [roll, valueAt_pointwise hi, rollIndex, if_neg hrow]

end Positions

/-! ## Packed rows -/

section Segments

variable {cuSeqlens : List Int} {n i : Nat}

/-- Between a bound that is reached and one that is not there are two next to each other. -/
theorem exists_step {c : Nat → Int} {x : Int} {m : Nat} (hlow : c 0 ≤ x) (hhigh : x < c m) :
    ∃ k < m, c k ≤ x ∧ x < c (k + 1) := by
  induction m with
  | zero => omega
  | succ m ih =>
    by_cases hm : x < c m
    · obtain ⟨k, hk, hle, hlt⟩ := ih hm
      exact ⟨k, by omega, hle, hlt⟩
    · exact ⟨m, Nat.lt_succ_self m, by omega, hhigh⟩

theorem PacksTokens.le_of_le (h : PacksTokens cuSeqlens n) {k m : Nat} (hkm : k ≤ m)
    (hm : m < cuSeqlens.length) : cuSeqlens.getD k 0 ≤ cuSeqlens.getD m 0 := by
  induction m, hkm using Nat.le_induction with
  | base => exact le_rfl
  | succ m hkm ih => exact (ih (by omega)).trans (h.sorted m (by omega))

theorem mem_sequenceEnds {e : Int} :
    e ∈ cuSeqlens.tail.map (· - 1) ↔
      ∃ m, m + 1 < cuSeqlens.length ∧ cuSeqlens.getD (m + 1) 0 = e + 1 := by
  rw [mem_map]
  constructor
  · rintro ⟨x, hx, rfl⟩
    obtain ⟨m, hm⟩ := mem_iff_getElem?.mp hx
    rw [getElem?_tail] at hm
    refine ⟨m, (List.getElem?_eq_some_iff.mp hm).1, ?_⟩
    rw [getD_eq_getElem?_getD, hm, Option.getD_some]
    ring
  · rintro ⟨m, hm, heq⟩
    refine ⟨e + 1, mem_iff_getElem?.mpr ⟨m, ?_⟩, by ring⟩
    rw [getElem?_tail, ← heq, getD_eq_getElem?_getD, getElem?_eq_getElem hm, Option.getD_some]

/-- Positions that are no last ones stay in their packed row. -/
theorem sameSegment_iff (h : PacksTokens cuSeqlens n) (hi : i < n) :
    SameSegment cuSeqlens i (i + 1) ↔ (i : Int) ∉ cuSeqlens.tail.map (· - 1) := by
  rw [mem_sequenceEnds]
  constructor
  · rintro ⟨k, hk, hlow, -, -, hhigh⟩ ⟨m, hm, hend⟩
    rw [Nat.cast_succ] at hhigh
    rcases lt_or_ge m k with hmk | hkm
    · have := h.le_of_le (show m + 1 ≤ k from hmk) (by omega)
      omega
    · have := h.le_of_le (show k + 1 ≤ m + 1 by omega) hm
      omega
  · intro hnot
    have hcovers := h.covers
    have hrows := h.rows
    obtain ⟨k, hk, hlow, hhigh⟩ := exists_step (c := fun k => cuSeqlens.getD k 0) (x := (i : Int))
      (m := cuSeqlens.length - 1) (by simp only [h.start]; omega) (by simp only [hcovers]; omega)
    have hne : cuSeqlens.getD (k + 1) 0 ≠ (i : Int) + 1 := fun heq => hnot ⟨k, by omega, heq⟩
    exact ⟨k, by omega, hlow, hhigh, by push_cast; omega, by push_cast; omega⟩

theorem sequenceEnds_inside (h : PacksTokens cuSeqlens n) :
    (∀ e : Int, e ∈ cuSeqlens.tail.map (· - 1) → 0 ≤ e ∧ e < n) ↔ 0 < cuSeqlens.getD 1 0 := by
  have hrows := h.rows
  constructor
  · intro hinside
    have hfirst := (hinside (cuSeqlens.getD 1 0 - 1)
      (mem_sequenceEnds.mpr ⟨0, by omega, by ring⟩)).1
    omega
  · intro hpos e he
    obtain ⟨m, hm, heq⟩ := mem_sequenceEnds.mp he
    have hlow := h.le_of_le (show 1 ≤ m + 1 by omega) hm
    have hhigh := h.le_of_le (show m + 1 ≤ cuSeqlens.length - 1 by omega) (by omega)
    rw [h.covers] at hhigh
    omega

end Segments

/-! ## Masks -/

section Masks

variable {containers : List Container} {inputIds : Tensor Int} {i : Nat}

theorem shape_requestTensorLike {name : Container → Option (Tensor Int)} {t : Tensor Int}
    (h : requestTensorLike name containers inputIds = some t) : t.shape = inputIds.shape := by
  simpa using (Option.filter_eq_some_iff.mp h).2

theorem shape_requestTokenValidity :
    (requestTokenValidity containers inputIds).shape = inputIds.shape := by
  unfold requestTokenValidity
  split
  · rfl
  · split
    · rename_i hlike
      exact shape_requestTensorLike hlike
    · rfl

theorem shape_rowTargets : (rowTargets containers inputIds).shape = inputIds.shape := by
  unfold rowTargets
  dsimp only
  split <;> split_ifs <;> exact shape_requestTokenValidity

/-- The targets of the rows, by position. -/
theorem valueAt_rowTargets (containers : List Container) (hshape : inputIds.shape ≠ [])
    (hi : i < inputIds.shape.prod) :
    valueAt (rowTargets containers inputIds) i = true ↔ i % width inputIds + 1 ≠ width inputIds ∧
      (∀ positionIds ∈ requestTensorLike (·.positionIds) containers inputIds,
        valueAt positionIds (i + 1) = valueAt positionIds i + 1) ∧
      valueAt (requestTokenValidity containers inputIds) i = true ∧
      valueAt (requestTokenValidity containers inputIds) (i + 1) = true := by
  have hvalid : (requestTokenValidity containers inputIds).shape = inputIds.shape :=
    shape_requestTokenValidity
  set valid := requestTokenValidity containers inputIds
  have hwidth : width valid = width inputIds := by rw [width, width, hvalid]
  have hpos : 0 < width inputIds := by
    obtain ⟨q, hq⟩ := width_dvd hshape
    by_contra hzero
    rw [hq, Nat.eq_zero_of_not_pos hzero, zero_mul] at hi
    omega
  have hboth : i % width inputIds + 1 ≠ width inputIds →
      (valueAt (zip (· && ·) valid (roll valid)) i = true ↔
        valueAt valid i = true ∧ valueAt valid (i + 1) = true) := by
    intro hrow
    rw [valueAt_zip (hvalid ▸ hi), valueAt_roll (hvalid ▸ hi) (hwidth ▸ hrow), Bool.and_eq_true]
  unfold rowTargets
  dsimp only
  cases hlike : requestTensorLike (·.positionIds) containers inputIds with
  | none =>
    have hsame : width (zip (· && ·) valid (roll valid)) = width inputIds := hwidth
    dsimp only
    rw [hsame, if_pos hpos, valueAt_pointwise (hvalid ▸ hi)]
    by_cases hrow : i % width inputIds + 1 = width inputIds
    · simp [hrow]
    · rw [if_neg hrow, hboth hrow]
      simp [hrow]
  | some positionIds =>
    have hpositions : positionIds.shape = inputIds.shape := shape_requestTensorLike hlike
    have hwidth' : width positionIds = width inputIds := by rw [width, width, hpositions]
    have hsame : ∀ u : Tensor Bool, width (zip (· && ·) (zip (· && ·) valid (roll valid)) u) =
        width inputIds := fun _ => hwidth
    dsimp only
    rw [hsame, if_pos hpos, valueAt_pointwise (hvalid ▸ hi)]
    by_cases hrow : i % width inputIds + 1 = width inputIds
    · simp [hrow]
    · have hi' : i < positionIds.shape.prod := hpositions ▸ hi
      rw [if_neg hrow, valueAt_zip (show i < (zip _ valid (roll valid)).shape.prod from hvalid ▸ hi),
        Bool.and_eq_true, hboth hrow, valueAt_zip (show i < (roll positionIds).shape.prod from hi'),
        valueAt_roll hi' (hwidth' ▸ hrow)]
      simp [hrow, and_comm]

/-- What the mask has to be. -/
def IsTargetMask (containers : List Container) (inputIds : Tensor Int) (mask : Tensor Bool) : Prop :=
  mask.shape = inputIds.shape ∧
    ∀ i < inputIds.shape.prod, valueAt mask i = true ↔ IsTarget containers inputIds i

/-- A request as callers send it: rows of tokens, packed by boundaries that cover them. -/
structure Accepted (containers : List Container) (inputIds : Tensor Int) : Prop where
  shape : inputIds.shape ≠ []
  packs : ∀ cuSeqlens ∈ requestTensor (·.cuSeqlens) containers,
    PacksTokens cuSeqlens.data inputIds.shape.prod

/-- The first packed row has a token. -/
def FirstRowNonempty (containers : List Container) : Prop :=
  ∀ cuSeqlens ∈ requestTensor (·.cuSeqlens) containers, 0 < cuSeqlens.data.getD 1 0

/-- The mask is that of the sequences unless the first packed row is empty, and is then none. -/
theorem predictionTargetMask_iff (h : Accepted containers inputIds) :
    (∃ mask, predictionTargetMask containers inputIds = .ok mask ∧
        IsTargetMask containers inputIds mask) ↔ FirstRowNonempty containers := by
  have hrow := fun i (hi : i < inputIds.shape.prod) =>
    valueAt_rowTargets containers h.shape hi
  have hshape : (rowTargets containers inputIds).shape = inputIds.shape := shape_rowTargets
  unfold predictionTargetMask FirstRowNonempty
  rw [if_neg h.shape]
  dsimp only
  cases hcu : requestTensor (·.cuSeqlens) containers with
  | none =>
    refine iff_of_true ⟨_, rfl, hshape, fun i hi => ?_⟩ (by simp)
    rw [hrow i hi]
    constructor
    · rintro ⟨hlast, hpositions, hvalid⟩
      exact ⟨⟨hlast, by simp [hcu], hpositions⟩, hvalid⟩
    · rintro ⟨hsequence, hvalid⟩
      exact ⟨hsequence.row, hsequence.positions, hvalid⟩
  | some cuSeqlens =>
    have hpacks := h.packs cuSeqlens hcu
    have hlength : (rowTargets containers inputIds).data.length = inputIds.shape.prod := by
      rw [(rowTargets containers inputIds).size, hshape]
    have hmany : 1 < cuSeqlens.data.length := hpacks.rows
    dsimp only
    rw [if_pos hmany, hlength]
    have hinside := sequenceEnds_inside hpacks
    simp only [Option.mem_def, Option.some.injEq, forall_eq']
    rw [← hinside]
    split_ifs with hout
    · simp only [any_eq_true, Bool.or_eq_true, decide_eq_true_eq] at hout
      obtain ⟨e, he, hout⟩ := hout
      constructor
      · rintro ⟨mask, hmask, -⟩
        cases hmask
      · intro hin
        have := hin e he
        omega
    · simp only [any_eq_true, Bool.or_eq_true, decide_eq_true_eq, not_exists, not_and] at hout
      refine iff_of_true ⟨_, rfl, hshape, fun i hi => ?_⟩ (fun e he => ?_)
      · rw [clear, valueAt_pointwise (hshape ▸ hi), Bool.and_eq_true, hrow i hi]
        have hsegment := sameSegment_iff hpacks hi
        constructor
        · rintro ⟨⟨hlast, hpositions, hvalid⟩, hend⟩
          refine ⟨⟨hlast, ?_, hpositions⟩, hvalid⟩
          intro cu hcu'
          rw [hcu] at hcu'
          cases hcu'
          exact hsegment.mpr (by simpa using hend)
        · rintro ⟨hsequence, hvalid⟩
          refine ⟨⟨hsequence.row, hsequence.positions, hvalid⟩, ?_⟩
          simpa using hsegment.mp (hsequence.segment cuSeqlens hcu)
      · have := hout e he
        omega

end Masks

/-! ## Labels -/

section Labels

variable {containers : List Container} {inputIds : Tensor Int}

/-- The next token at the targets, and the ignore index elsewhere. -/
def IsTargetLabels (containers : List Container) (inputIds labels : Tensor Int) : Prop :=
  labels.shape = inputIds.shape ∧ ∀ i < inputIds.shape.prod,
      (IsTarget containers inputIds i → valueAt labels i = valueAt inputIds (i + 1)) ∧
      (¬IsTarget containers inputIds i → valueAt labels i = -100)

theorem synthesizeLabels_spec (h : Accepted containers inputIds)
    (hfirst : FirstRowNonempty containers) :
    ∃ labels, synthesizeLabels containers inputIds = .ok labels ∧
      IsTargetLabels containers inputIds labels := by
  obtain ⟨mask, hmask, hshape, htarget⟩ := (predictionTargetMask_iff h).mpr hfirst
  unfold synthesizeLabels
  rw [if_neg h.shape]
  dsimp only
  split_ifs with hwidth
  · refine ⟨_, rfl, rfl, fun i hi => ?_⟩
    obtain ⟨q, hq⟩ := width_dvd h.shape
    rw [hq, show width inputIds = 0 from hwidth, zero_mul] at hi
    omega
  · rw [hmask, bind_ok]
    refine ⟨_, rfl, hshape, fun i hi => ?_⟩
    rw [valueAt_zip (hshape ▸ hi)]
    constructor
    · intro hi'
      rw [(htarget i hi).mpr hi', if_pos rfl, valueAt_roll hi hi'.1.row]
    · intro hi'
      rw [if_neg fun hmem => hi' ((htarget i hi).mp hmem)]

mutual

/-- The requests inside a request that have no microbatches of their own. -/
def Request.leaves : Request → List (List Container)
  | .single containers => [containers]
  | .microbatches batch => Request.leavesOf batch

/-- Those of all microbatches. -/
def Request.leavesOf : List Request → List (List Container)
  | [] => []
  | microbatch :: batch => microbatch.leaves ++ Request.leavesOf batch

end

/-- A request with the labels that were missing. -/
inductive Labelled : Request → Request → Prop
  | kept (containers : List Container) (h : containers.any (·.labels.isSome) = true ∨
        requestTensor (·.inputIds) containers = none) :
      Labelled (.single containers) (.single containers)
  | single (containers : List Container) (inputIds labels : Tensor Int)
      (hnone : containers.any (·.labels.isSome) = false)
      (hinput : requestTensor (·.inputIds) containers = some inputIds)
      (hlabels : IsTargetLabels containers inputIds labels) :
      Labelled (.single containers) (.single (setLabels labels containers))
  | microbatches (batch batch' : List Request) (h : Forall₂ Labelled batch batch') :
      Labelled (.microbatches batch) (.microbatches batch')

/-- What a request has to fulfil for the labels of its microbatches. -/
def Request.AcceptedFirst (leaves : List (List Container)) : Prop :=
  ∀ containers ∈ leaves, ∀ inputIds ∈ requestTensor (·.inputIds) containers,
    Accepted containers inputIds ∧ FirstRowNonempty containers

mutual

theorem synthesizeRequestLabels_labelled (request : Request)
    (h : Request.AcceptedFirst request.leaves) :
    ∃ request', synthesizeRequestLabels request = .ok request' ∧ Labelled request request' := by
  cases request with
  | single containers =>
    unfold synthesizeRequestLabels
    split_ifs with hany
    · exact ⟨_, rfl, Labelled.kept containers (.inl hany)⟩
    · cases hinput : requestTensor (·.inputIds) containers with
      | none => exact ⟨_, rfl, Labelled.kept containers (.inr hinput)⟩
      | some inputIds =>
        obtain ⟨haccepted, hfirst⟩ := h containers (by simp [Request.leaves]) inputIds hinput
        obtain ⟨labels, hlabels, hspec⟩ := synthesizeLabels_spec haccepted hfirst
        dsimp only
        rw [hlabels]
        exact ⟨_, rfl, Labelled.single containers inputIds labels (by simpa using hany) hinput hspec⟩
  | microbatches batch =>
    obtain ⟨batch', hbatch, hlabelled⟩ := synthesizeEach_labelled batch h
    refine ⟨.microbatches batch', ?_, Labelled.microbatches batch batch' hlabelled⟩
    rw [synthesizeRequestLabels, hbatch]
    rfl

theorem synthesizeEach_labelled (batch : List Request)
    (h : Request.AcceptedFirst (Request.leavesOf batch)) :
    ∃ batch', synthesizeEach batch = .ok batch' ∧ Forall₂ Labelled batch batch' := by
  cases batch with
  | nil => exact ⟨[], rfl, Forall₂.nil⟩
  | cons microbatch batch =>
    obtain ⟨microbatch', hmicrobatch, hlabelled⟩ := synthesizeRequestLabels_labelled microbatch
      fun cs hcs => h cs (mem_append_left _ hcs)
    obtain ⟨batch', hbatch, hrest⟩ := synthesizeEach_labelled batch
      fun cs hcs => h cs (mem_append_right _ hcs)
    refine ⟨microbatch' :: batch', ?_, Forall₂.cons hlabelled hrest⟩
    rw [synthesizeEach, hmicrobatch, bind_ok, hbatch]
    rfl

end

/-- Masks and labels are those of the sequences exactly when no first packed row is empty. -/
theorem synthesizeRequestLabels_iff (request : Request)
    (h : ∀ containers ∈ request.leaves, ∀ inputIds ∈ requestTensor (·.inputIds) containers,
      Accepted containers inputIds) :
    ((∀ containers ∈ request.leaves, ∀ inputIds ∈ requestTensor (·.inputIds) containers,
        ∃ mask, predictionTargetMask containers inputIds = .ok mask ∧
          IsTargetMask containers inputIds mask) ∧
      ∃ request', synthesizeRequestLabels request = .ok request' ∧ Labelled request request') ↔
    ∀ containers ∈ request.leaves, (requestTensor (·.inputIds) containers).isSome →
      FirstRowNonempty containers := by
  constructor
  · rintro ⟨hmasks, -⟩ containers hmem hsome
    obtain ⟨inputIds, hinput⟩ := Option.isSome_iff_exists.mp hsome
    exact (predictionTargetMask_iff (h containers hmem inputIds hinput)).mp
      (hmasks containers hmem inputIds hinput)
  · intro hfirst
    have hof : ∀ containers ∈ request.leaves,
        ∀ inputIds ∈ requestTensor (·.inputIds) containers, FirstRowNonempty containers :=
      fun containers hmem inputIds hinput =>
        hfirst containers hmem (Option.isSome_of_mem hinput)
    refine ⟨fun containers hmem inputIds hinput => ?_, ?_⟩
    · exact (predictionTargetMask_iff (h containers hmem inputIds hinput)).mpr
        (hof containers hmem inputIds hinput)
    · exact synthesizeRequestLabels_labelled request fun containers hmem inputIds hinput =>
        ⟨h containers hmem inputIds hinput, hof containers hmem inputIds hinput⟩

/-- Two tokens in the second of two packed rows. -/
def emptyFirstRow : List Container :=
  [{ inputIds := some (Tensor.ofList [10, 11]), cuSeqlens := some (Tensor.ofList [0, 0, 2]) }]

/-- Two tokens in the first of two packed rows. -/
def emptyLastRow : List Container :=
  [{ inputIds := some (Tensor.ofList [10, 11]), cuSeqlens := some (Tensor.ofList [0, 2, 2]) }]

/-- An empty first row is taken for a boundary outside of the tokens. -/
theorem predictionTargetMask_empty_first :
    PacksTokens [0, 0, 2] 2 ∧ predictionTargetMask emptyFirstRow (Tensor.ofList [10, 11]) =
        .error "cu_seqlens contains a sequence boundary outside input_ids" ∧
      ¬∃ request', synthesizeRequestLabels (.single emptyFirstRow) = .ok request' := by
  refine ⟨⟨by decide, rfl, by decide, rfl⟩, by decide, ?_⟩
  rintro ⟨request', h⟩
  cases h

/-- An empty last row. -/
theorem synthesizeRequestLabels_iff_empty_last :
    ((∀ containers ∈ (Request.single emptyLastRow).leaves,
        ∀ inputIds ∈ requestTensor (·.inputIds) containers,
        ∃ mask, predictionTargetMask containers inputIds = .ok mask ∧
          IsTargetMask containers inputIds mask) ∧
      ∃ request', synthesizeRequestLabels (.single emptyLastRow) = .ok request' ∧
        Labelled (.single emptyLastRow) request') ↔
    ∀ containers ∈ (Request.single emptyLastRow).leaves,
      (requestTensor (·.inputIds) containers).isSome → FirstRowNonempty containers := by
  apply synthesizeRequestLabels_iff
  intro containers hmem inputIds hinput
  obtain rfl : containers = emptyLastRow := by simpa [Request.leaves] using hmem
  obtain rfl : inputIds = Tensor.ofList [10, 11] := by
    simpa [requestTensor, emptyLastRow, eq_comm] using hinput
  refine ⟨by decide, ?_⟩
  intro cuSeqlens hcu
  obtain rfl : cuSeqlens = Tensor.ofList [0, 2, 2] := by
    simpa [requestTensor, emptyLastRow, eq_comm] using hcu
  exact ⟨by decide, rfl, by decide, rfl⟩

end Labels

end ArcticPlatform.Distillation
