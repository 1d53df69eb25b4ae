import ArcticPlatform.Library.IndexWrites
import ArcticPlatform.PipelinePacking.Microbatches
import ArcticPlatform.PipelinePacking.Sequences

/-!
# Pipeline calls with packing

A packed call splits its batch into microbatches, packs each one, runs the engine on
the packed tokens, unpacks the outputs and puts the rows back in the order of the
batch.  A value of the batch is aligned with the mask; it may have further
dimensions, whose number of elements is its width.

Main results:

- Theorem `runMicrobatch_eq`: the output of a microbatch of an engine that works
  on every token alone.
- Theorem `backwardIndices_restore`: the rows are put back in order.
- Theorem `transparent_iff`: packing is transparent exactly for masks whose ones
  come first, and for values that are split or stay in one microbatch.
-/

namespace ArcticPlatform.PipelinePacking

open Slices List Function
open Option hiding map_map mem_map mem_map_of_mem

/-! ## The model -/

/-- What the splitting of a batch looks at in a value of leading dimensions `[B, S]`. -/
structure Field where
  /-- The key is one of `BATCH_DIM_CONTEXT_KEYS`. -/
  perSequence : Bool
  /-- The number of elements of one token. -/
  width : Nat

/-- The value is split with the rows. -/
def Field.Split (B S : Nat) (field : Field) : Prop :=
  field.perSequence = true ∨ B * S * field.width = B * S

instance (B S : Nat) (field : Field) : Decidable (field.Split B S) :=
  inferInstanceAs (Decidable (_ ∨ _))

/-- A value with a token in every place of the mask. -/
structure TokenValue (α : Type) where
  field : Field
  rows : List (List α)

/-- A value of the call that the engine gets. -/
inductive Packed (α : Type)
  /-- A packed row `[1, T, …]`. -/
  | tokens (l : List α)
  /-- The value as it came. -/
  | whole (rows : List (List α))
  deriving DecidableEq

section Model

variable {α β : Type}

/-- A value of a microbatch: its rows when it is split, else all of it. -/
def splitValue (B S : Nat) (group : List Nat) (v : TokenValue α) : List (List α) :=
  if v.field.Split B S then group.filterMap fun i => v.rows[i]? else v.rows

/-- `pack_sequences` on one value. -/
def packValue (empty : α) (S : Nat) (lens : List Nat) (rows : List (List α)) :
    Option (Packed α) :=
  if rows.length = lens.length ∧ ∀ row ∈ rows, row.length = S then
    (packRows empty lens rows).map .tokens
  else some (.whole rows)

/-- One microbatch of `_run_pipeline_with_packing`. -/
def runMicrobatch (engine : Nat → List (Packed α) → Option (List β)) (empty : α) (padValue : β)
    (S : Nat) (mask : List (List Bool)) (bag : List (List (List α))) : Option (List (List β)) := do
  let lens := maskLens mask
  let packed ← bag.mapM (packValue empty S lens)
  let out ← engine lens.sum packed
  unpackSequences padValue S lens out

/-- `backward_indices[forward_indices] = arange(bs)`. -/
def backwardIndices (bs : Nat) (forward : List Nat) : List Nat :=
  forward.zipIdx.foldl (fun backward entry => backward.set entry.1 entry.2) (replicate bs 0)

/-- `_run_pipeline_with_packing`, for one output of the engine. -/
def runPipelineWithPacking (argsort : List Int → List Nat) (capacity : Nat) (others : List Nat)
    (engine : Nat → List (Packed α) → Option (List β)) (empty : α) (padValue : β) (S : Nat)
    (mask : List (List Bool)) (values : List (TokenValue α)) : Option (List (List β)) :=
  if mask.length = 0 ∨ S = 0 then none
  else do
    let groups ← microbatchGroups argsort capacity others (maskLens mask)
    let outs ← groups.mapM fun group =>
      runMicrobatch engine empty padValue S (group.filterMap fun i => mask[i]?)
        (values.map (splitValue mask.length S group))
    (backwardIndices mask.length groups.flatten).mapM fun k => outs.flatten[k]?

/-- The token of a value at a place of the batch. -/
def token? (rows : List (List α)) (i c : Nat) : Option α :=
  rows[i]?.bind fun row => row[c]?

/-- The engine works on every token alone. -/
def PerToken (f : List α → β) (engine : Nat → List (Packed α) → Option (List β)) : Prop :=
  ∀ T (columns : List (List α)), (∀ column ∈ columns, column.length = T) →
    engine T (columns.map .tokens) =
      some ((range T).map fun t => f (columns.filterMap fun column => column[t]?))

/-- A value has a token in every place of the mask. -/
def Aligned (mask : List (List Bool)) (S : Nat) (rows : List (List α)) : Prop :=
  rows.length = mask.length ∧ ∀ row ∈ rows, row.length = S

end Model

/-- Packing is transparent for batches of this mask and these values. -/
structure Transparent (argsort : List Int → List Nat) (capacity : Nat) (others : List Nat)
    (S : Nat) (mask : List (List Bool)) (fields : List Field) : Prop where
  /-- Packing keeps the tokens of the mask in order, and `cu_seqlens` delimits the rows. -/
  pack : ∀ {α : Type} (empty : α) (rows : List (List α)), Aligned mask S rows →
    ∃ packed, packRows empty (maskLens mask) rows = some packed ∧
      packed = (zipWith maskTokens mask rows).flatten ∧
      ∀ i m row, mask[i]? = some m → rows[i]? = some row →
        ∃ start stop, (cumulative (maskLens mask))[i]? = some start ∧
          (cumulative (maskLens mask))[i + 1]? = some stop ∧
          slice packed start stop = maskTokens m row
  /-- Unpacking puts every packed value back at the place of its token. -/
  unpack : ∀ {β : Type} (padValue : β) (packed : List β), packed.length = (maskLens mask).sum →
    ∃ out, unpackSequences padValue S (maskLens mask) packed = some out ∧
      ∀ i m c, mask[i]? = some m → m[c]? = some true →
        token? out i c = packed[((maskLens mask).take i).sum + (m.take c).count true]?
  /-- The packed path gives at every mask-1 place the value of the unpacked path. -/
  pipeline : ∀ {α β : Type} (f : List α → β) (engine : Nat → List (Packed α) → Option (List β))
    (empty : α) (padValue : β) (values : List (TokenValue α)), PerToken f engine →
    values.map (·.field) = fields → (∀ v ∈ values, Aligned mask S v.rows) →
    ∃ out, runPipelineWithPacking argsort capacity others engine empty padValue S mask values =
        some out ∧ ∀ i m c, mask[i]? = some m → m[c]? = some true →
        token? out i c = some (f (values.filterMap fun v => token? v.rows i c))

/-! ## Restoring the order of the rows -/

theorem backwardIndices_eq {bs : Nat} {forward : List Nat} (hperm : forward.Perm (range bs)) :
    backwardIndices bs forward = (range bs).map fun r => forward.idxOf r := by
  apply ext_getElem?
  intro r
  by_cases hr : r < bs
  · have hmem : r ∈ forward := hperm.mem_iff.mpr (mem_range.mpr hr)
    have hplace : forward[forward.idxOf r]? = some r := by simp [hmem]
    rw [backwardIndices, IndexWrites.getElem?_foldl_set
      (by rw [zipIdx_map_fst]; exact hperm.nodup_iff.mpr nodup_range)
      (mk_mem_zipIdx_iff_getElem?.mpr hplace) (by simpa using hr)]
    simp [hr]
  · have hlength : (backwardIndices bs forward).length ≤ r := by
      rw [backwardIndices, IndexWrites.length_foldl_set, length_replicate]
      omega
    rw [getElem?_eq_none hlength, getElem?_eq_none (by simpa using hr)]

/-- The rows are put back in the order of the batch. -/
theorem backwardIndices_restore {γ : Type} {bs : Nat} {forward : List Nat}
    (hperm : forward.Perm (range bs)) (row : Nat → γ) :
    (backwardIndices bs forward).mapM (fun k => (forward.map row)[k]?) =
      some ((range bs).map row) := by
  rw [backwardIndices_eq hperm, mapM_map]
  apply Results.mapM_eq_some_map
  intro r hr
  have hmem : r ∈ forward := hperm.mem_iff.mpr hr
  simp [hmem]

/-! ## Microbatches of an engine that works on every token alone -/

section Microbatch

variable {α β : Type}

/-- A row of the output: the values of its tokens and padding. -/
def outRow (f : List α → β) (padValue : β) (S : Nat) (mask : List (List Bool))
    (data : List (List (List α))) (i : Nat) : List β :=
  let n := (mask.getD i []).count true
  ((range n).map fun c => f (data.filterMap fun rows => token? rows i c)) ++
    replicate (S - n) padValue

theorem map_columns (f : List α → β) {ι : Type} (n : ι → Nat) (block : List (List α) → ι → List α)
    (data : List (List (List α))) (group : List ι)
    (hlength : ∀ rows ∈ data, ∀ i ∈ group, (block rows i).length = n i) :
    (range (group.map n).sum).map (fun t =>
        f ((data.map fun rows => (group.map (block rows)).flatten).filterMap
          fun column => column[t]?)) = (group.map fun i => (range (n i)).map fun c =>
        f (data.filterMap fun rows => (block rows i)[c]?)).flatten := by
  induction group with
  | nil => simp
  | cons i group ih =>
    have ih := ih fun rows hrows j hj => hlength rows hrows j (mem_cons_of_mem i hj)
    rw [map_cons, sum_cons, range_add, map_append, map_cons, flatten_cons, ← ih, map_map]
    congr 1
    · apply map_congr_left
      intro c hc
      rw [filterMap_map]
      congr 1
      apply filterMap_congr
      intro rows hrows
      have hlt : c < (block rows i).length := by
        rw [hlength rows hrows i mem_cons_self]
        exact mem_range.mp hc
      simp [getElem?_append_left hlt]
    · apply map_congr_left
      intro t ht
      simp only [comp_apply, filterMap_map]
      congr 1
      apply filterMap_congr
      intro rows hrows
      have hle := hlength rows hrows i mem_cons_self
      simp [getElem?_append_right, hle]

theorem filterMap_rows {γ : Type} {rows : List (List γ)} {group : List Nat}
    (hgroup : ∀ i ∈ group, i < rows.length) :
    group.filterMap (fun i => rows[i]?) = group.map fun i => rows.getD i [] := by
  induction group with
  | nil => rfl
  | cons i group ih =>
    have hi := hgroup i mem_cons_self
    rw [filterMap_cons, getElem?_eq_getElem hi, map_cons,
      ih fun j hj => hgroup j (mem_cons_of_mem i hj)]
    simp [getD_eq_getElem?_getD, hi]

theorem filterMap_range {γ : Type} (rows : List (List γ)) :
    (range rows.length).filterMap (fun i => rows[i]?) = rows := by
  rw [filterMap_rows fun i hi => mem_range.mp hi]
  apply ext_getElem
  · simp
  · intro i h1 h2
    simp [getD_eq_getElem?_getD, getElem?_eq_getElem h2]

/-- A microbatch whose values are the rows of its group. -/
theorem runMicrobatch_eq {f : List α → β} {engine : Nat → List (Packed α) → Option (List β)}
    (hengine : PerToken f engine) (empty : α) (padValue : β) {S : Nat} {mask : List (List Bool)}
    (hmask : Aligned mask S mask) {data : List (List (List α))}
    (hdata : ∀ rows ∈ data, Aligned mask S rows) {group : List Nat}
    (hgroup : ∀ i ∈ group, i < mask.length) :
    runMicrobatch engine empty padValue S (group.filterMap fun i => mask[i]?)
        (data.map fun rows => group.filterMap fun i => rows[i]?) =
      some (group.map (outRow f padValue S mask data)) := by
  have hlens : maskLens (group.filterMap fun i => mask[i]?) =
      group.map fun i => (mask.getD i []).count true := by
    rw [maskLens, filterMap_rows hgroup, map_map]
    rfl
  have hfit : ∀ i ∈ group, (mask.getD i []).count true ≤ S := by
    intro i hi
    have hrow : mask.getD i [] ∈ mask := by
      simp [getD_eq_getElem?_getD, hgroup i hi]
    rw [← hmask.2 _ hrow]
    exact List.count_le_length
  have hrow : ∀ rows ∈ data, ∀ i ∈ group, (rows.getD i []).length = S := by
    intro rows hrows i hi
    have hlt : i < rows.length := (hdata rows hrows).1 ▸ hgroup i hi
    apply (hdata rows hrows).2
    simp [getD_eq_getElem?_getD, hlt]
  -- every value is packed
  have hpack : ∀ rows ∈ data, packValue empty S (group.map fun i => (mask.getD i []).count true)
      (group.filterMap fun i => rows[i]?) =
        some (.tokens (group.map fun i => (rows.getD i []).take ((mask.getD i []).count true)).flatten) := by
    intro rows hrows
    have hlt : ∀ i ∈ group, i < rows.length := fun i hi => (hdata rows hrows).1 ▸ hgroup i hi
    rw [filterMap_rows hlt, packValue, if_pos, packRows_eq]
    · rw [zipWith_map_left, zipWith_map_right, zipWith_self, map_some]
    · simp
    · intro k n row hn hk
      rw [getElem?_map, map_eq_some_iff] at hn hk
      obtain ⟨i, hi, rfl⟩ := hn
      obtain ⟨i', hi', rfl⟩ := hk
      obtain rfl : i = i' := some.inj (hi.symm.trans hi')
      rw [hrow rows hrows i (mem_of_getElem? hi)]
      exact hfit i (mem_of_getElem? hi)
    · refine ⟨by simp, ?_⟩
      intro row hin
      obtain ⟨i, hi, rfl⟩ := mem_map.mp hin
      exact hrow rows hrows i hi
  have hpacked : (data.map fun rows => group.filterMap fun i => rows[i]?).mapM
      (packValue empty S (group.map fun i => (mask.getD i []).count true)) =
        some ((data.map fun rows => (group.map fun i =>
          (rows.getD i []).take ((mask.getD i []).count true)).flatten).map .tokens) := by
    rw [mapM_map, map_map]
    exact Results.mapM_eq_some_map hpack
  -- the engine works token by token
  have hcolumns := map_columns f (fun i => (mask.getD i []).count true)
    (fun rows i => (rows.getD i []).take ((mask.getD i []).count true)) data group (by
      intro rows hrows i hi
      rw [length_take, hrow rows hrows i hi]
      exact min_eq_left (hfit i hi))
  have htokens : (group.map fun i => (range ((mask.getD i []).count true)).map fun c =>
      f (data.filterMap fun rows => ((rows.getD i []).take ((mask.getD i []).count true))[c]?)) =
      group.map fun i => (range ((mask.getD i []).count true)).map fun c =>
        f (data.filterMap fun rows => token? rows i c) := by
    apply map_congr_left
    intro i hi
    apply map_congr_left
    intro c hc
    congr 1
    apply filterMap_congr
    intro rows hrows
    have hlt : i < rows.length := (hdata rows hrows).1 ▸ hgroup i hi
    rw [getElem?_take, if_pos (mem_range.mp hc)]
    simp [token?, getD_eq_getElem?_getD, hlt]
  have hle : ∀ block ∈ group.map fun i => (range ((mask.getD i []).count true)).map fun c =>
      f (data.filterMap fun rows => token? rows i c), block.length ≤ S := by
    intro block hblock
    obtain ⟨i, hi, rfl⟩ := mem_map.mp hblock
    simpa using hfit i hi
  have hout := unpackSequences_flatten padValue hle
  have hblocks : (group.map fun i => (range ((mask.getD i []).count true)).map fun c =>
      f (data.filterMap fun rows => token? rows i c)).map List.length =
        group.map fun i => (mask.getD i []).count true := by
    simp [comp_def]
  rw [hblocks, map_map] at hout
  rw [runMicrobatch, hlens, hpacked]
  dsimp only [bind_eq_bind, bind_some]
  rw [hengine _ _ (by
    intro column hcolumn
    obtain ⟨rows, hrows, rfl⟩ := mem_map.mp hcolumn
    rw [List.length_flatten, map_map]
    congr 1
    apply map_congr_left
    intro i hi
    rw [comp_apply, length_take, hrow rows hrows i hi]
    exact min_eq_left (hfit i hi)), bind_some, hcolumns, htokens, hout]
  congr 1
  apply map_congr_left
  intro i hi
  simp [outRow]

end Microbatch

/-! ## Calls -/

/-- The call is not refused: the batch is not empty, every row fits a microbatch, and there
are enough rows for the microbatches of the other ranks. -/
structure Accepted (capacity : Nat) (others : List Nat) (S : Nat) (mask : List (List Bool)) :
    Prop where
  rows : 0 < mask.length
  columns : 0 < S
  aligned : Aligned mask S mask
  fits : ∀ n ∈ maskLens mask, n ≤ capacity
  others_le : ∀ n ∈ others, n ≤ mask.length

/-- The values are split with the rows, or the rows stay together. -/
def SplitOrTogether (capacity : Nat) (others : List Nat) (mask : List (List Bool))
    (fields : List Field) : Prop :=
  (∀ field ∈ fields, field.perSequence = true ∨ field.width = 1) ∨
    ((maskLens mask).sum ≤ capacity ∧ ∀ n ∈ others, n ≤ 1)

section Calls

variable {argsort : List Int → List Nat} {capacity S : Nat} {others : List Nat}
  {mask : List (List Bool)} {fields : List Field}

theorem split_iff {B : Nat} (hB : 0 < B) (hS : 0 < S) (field : Field) :
    field.Split B S ↔ field.perSequence = true ∨ field.width = 1 := by
  have hpos : 0 < B * S := mul_pos hB hS
  have hwidth : B * S * field.width = B * S ↔ field.width = 1 := by
    constructor
    · intro h
      exact Nat.eq_of_mul_eq_mul_left hpos (by rw [h, mul_one])
    · intro h
      rw [h, mul_one]
  rw [Field.Split, hwidth]

theorem accepted_groups (hargsort : ∀ keys, (argsort keys).Perm (range keys.length))
    (h : Accepted capacity others S mask) :
    ∃ groups, microbatchGroups argsort capacity others (maskLens mask) = some groups ∧
      groups.flatten.Perm (range mask.length) ∧ (∀ g ∈ groups, g ≠ [] ∧ g.Pairwise (· ≤ ·)) ∧
      (groups.length = 1 ↔ (maskLens mask).sum ≤ capacity ∧ ∀ n ∈ others, n ≤ 1) := by
  have hlength : (maskLens mask).length = mask.length := by simp [maskLens]
  have hrows : 0 < (maskLens mask).length := hlength ▸ h.rows
  have hothers : ∀ n ∈ others, n ≤ (maskLens mask).length := hlength ▸ h.others_le
  have hspec := microbatchGroups_spec hargsort h.fits hrows hothers
  rwa [hlength] at hspec

theorem group_eq_range {group : List Nat} {n : Nat} (hperm : group.Perm (range n))
    (hsorted : group.Pairwise (· ≤ ·)) : group = range n :=
  hperm.eq_of_pairwise (fun _ _ _ _ hab hba => le_antisymm hab hba) hsorted
    pairwise_le_range

/-- A call on values that are split, or that stay together, gives every row its output. -/
theorem runPipelineWithPacking_eq {α β : Type}
    (hargsort : ∀ keys, (argsort keys).Perm (range keys.length))
    (h : Accepted capacity others S mask) {f : List α → β}
    {engine : Nat → List (Packed α) → Option (List β)} (hengine : PerToken f engine) (empty : α)
    (padValue : β) {values : List (TokenValue α)} (hvalues : ∀ v ∈ values, Aligned mask S v.rows)
    (hsplit : SplitOrTogether capacity others mask (values.map (·.field))) :
    runPipelineWithPacking argsort capacity others engine empty padValue S mask values =
      some ((range mask.length).map (outRow f padValue S mask (values.map (·.rows)))) := by
  obtain ⟨groups, hgroups, hperm, hsorted, hsingle⟩ := accepted_groups hargsort h
  have hbag : ∀ group ∈ groups, values.map (splitValue mask.length S group) =
      (values.map (·.rows)).map fun rows => group.filterMap fun i => rows[i]? := by
    intro group hgroup
    rw [map_map]
    apply map_congr_left
    intro v hv
    rw [splitValue]
    split_ifs with hfield
    · rfl
    · -- the value is not split, so this is the only group
      rcases hsplit with hall | htogether
      · exact absurd ((split_iff h.rows h.columns v.field).mpr
          (hall v.field (mem_map_of_mem hv))) hfield
      · obtain ⟨g, hg⟩ := List.length_eq_one_iff.mp (hsingle.mpr htogether)
        subst hg
        obtain rfl : group = g := mem_singleton.mp hgroup
        have hrange := group_eq_range (by simpa using hperm) (hsorted group hgroup).2
        rw [comp_apply, hrange, ← (hvalues v hv).1, filterMap_range]
  have hout : ∀ group ∈ groups, runMicrobatch engine empty padValue S
      (group.filterMap fun i => mask[i]?) (values.map (splitValue mask.length S group)) =
        some (group.map (outRow f padValue S mask (values.map (·.rows)))) := by
    intro group hgroup
    rw [hbag group hgroup]
    apply runMicrobatch_eq hengine empty padValue h.aligned
    · intro rows hrows
      obtain ⟨v, hv, rfl⟩ := mem_map.mp hrows
      exact hvalues v hv
    · intro i hi
      exact mem_range.mp (hperm.mem_iff.mp (mem_flatten.mpr ⟨group, hgroup, hi⟩))
  have hpos := h.rows
  have hS := h.columns
  rw [runPipelineWithPacking, if_neg (by omega), hgroups]
  dsimp only [bind_eq_bind, bind_some]
  rw [Results.mapM_eq_some_map hout, bind_some, ← map_flatten]
  exact backwardIndices_restore hperm _

theorem lt_count_of_leadingOnes {m : List Bool} (hm : LeadingOnes m) {c : Nat}
    (hc : m[c]? = some true) : c < m.count true ∧ (m.take c).count true = c := by
  have hlt : c < m.count true := by
    by_contra hge
    rw [LeadingOnes] at hm
    rw [hm, getElem?_append_right (by simpa using hge)] at hc
    have hmem := mem_of_getElem? hc
    simp at hmem
  refine ⟨hlt, ?_⟩
  rw [LeadingOnes] at hm
  rw [hm, take_append_of_le_length (by simpa using hlt.le), take_replicate, count_replicate_self]
  omega

theorem count_le_length (hmask : Aligned mask S mask) {α : Type} {rows : List (List α)}
    (hrows : Aligned mask S rows) (i n : Nat) (row : List α) (hn : (maskLens mask)[i]? = some n)
    (hrow : rows[i]? = some row) : n ≤ row.length := by
  rw [maskLens, getElem?_map, map_eq_some_iff] at hn
  obtain ⟨m, hm, rfl⟩ := hn
  rw [hrows.2 row (mem_of_getElem? hrow), ← hmask.2 m (mem_of_getElem? hm)]
  exact List.count_le_length

theorem take_eq_tokens (hmask : Aligned mask S mask) (hones : ∀ m ∈ mask, LeadingOnes m)
    {α : Type} {rows : List (List α)} (hrows : Aligned mask S rows) :
    zipWith take (maskLens mask) rows = zipWith maskTokens mask rows := by
  rw [maskLens, zipWith_map_left]
  apply ext_getElem?
  intro i
  by_cases hi : i < mask.length
  · have hi' : i < rows.length := hrows.1 ▸ hi
    have hlength : rows[i].length = mask[i].length := by
      rw [hrows.2 _ (getElem_mem hi'), hmask.2 _ (getElem_mem hi)]
    simp [getElem?_zipWith, getElem?_eq_getElem hi, getElem?_eq_getElem hi',
      take_eq_maskTokens (hones _ (getElem_mem hi)) hlength]
  · simp [getElem?_zipWith, getElem?_eq_none (le_of_not_gt hi)]

theorem exists_blocks {β : Type} {lens : List Nat} {l : List β} (h : l.length = lens.sum) :
    ∃ blocks : List (List β), blocks.map List.length = lens ∧ blocks.flatten = l := by
  induction lens generalizing l with
  | nil => exact ⟨[], rfl, (eq_nil_of_length_eq_zero (by simpa using h)).symm⟩
  | cons n lens ih =>
    rw [sum_cons] at h
    obtain ⟨blocks, hlens, hflat⟩ := ih (l := l.drop n) (by rw [length_drop]; omega)
    refine ⟨l.take n :: blocks, ?_, ?_⟩
    · rw [map_cons, hlens, length_take, Nat.min_eq_left (by omega)]
    · rw [flatten_cons, hflat, take_append_drop]

theorem unpack_token (hmask : Aligned mask S mask) {β : Type} (padValue : β) {packed : List β}
    (hlength : packed.length = (maskLens mask).sum) :
    ∃ out, unpackSequences padValue S (maskLens mask) packed = some out ∧
      ∀ i m c, mask[i]? = some m → c < m.count true →
        token? out i c = packed[((maskLens mask).take i).sum + c]? := by
  obtain ⟨blocks, hlens, rfl⟩ := exists_blocks hlength
  have hle : ∀ block ∈ blocks, block.length ≤ S := by
    intro block hblock
    obtain ⟨m, hm, hcount⟩ := mem_map.mp (hlens ▸ mem_map_of_mem (f := List.length) hblock)
    rw [← hcount, ← hmask.2 m hm]
    exact List.count_le_length
  have hunpack := unpackSequences_flatten padValue hle
  rw [hlens] at hunpack
  refine ⟨_, hunpack, ?_⟩
  intro i m c hm hc
  have hn : (blocks.map List.length)[i]? = some (m.count true) := by
    rw [hlens, maskLens, getElem?_map, hm, map_some]
  rw [getElem?_map, map_eq_some_iff] at hn
  obtain ⟨block, hblock, hcount⟩ := hn
  rw [flatten_split hblock, ← hlens, ← map_take, ← List.length_flatten, append_assoc,
    getElem?_append_right (Nat.le_add_right _ _), Nat.add_sub_cancel_left,
    getElem?_append_left (by omega)]
  simp [token?, hblock, getElem?_append_left (by omega : c < block.length)]

theorem token_outRow {α β : Type} (f : List α → β) (padValue : β) {data : List (List (List α))}
    {i c : Nat} {m : List Bool} (hm : mask[i]? = some m) (hc : c < m.count true) :
    token? ((range mask.length).map (outRow f padValue S mask data)) i c =
      some (f (data.filterMap fun rows => token? rows i c)) := by
  have hi : i < mask.length := (List.getElem?_eq_some_iff.mp hm).1
  have hrow : mask.getD i [] = m := by rw [getD_eq_getElem?_getD, hm, getD_some]
  rw [token?, getElem?_map, getElem?_range hi]
  simp only [map_some, bind_some, outRow, hrow]
  rw [getElem?_append_left (by simpa using hc)]
  simp [hc]

/-- Masks whose ones come first, and values that are split or stay together. -/
theorem transparent_of (hargsort : ∀ keys, (argsort keys).Perm (range keys.length))
    (h : Accepted capacity others S mask) (hones : ∀ m ∈ mask, LeadingOnes m)
    (hsplit : SplitOrTogether capacity others mask fields) :
    Transparent argsort capacity others S mask fields := by
  constructor
  · intro α empty rows hrows
    have hle := count_le_length h.aligned hrows
    have hlength : rows.length = (maskLens mask).length := by rw [hrows.1, maskLens, length_map]
    have hlens := length_zipWith_take hlength hle
    have htokens := take_eq_tokens h.aligned hones hrows
    refine ⟨_, packRows_eq empty hlength hle, by rw [htokens], ?_⟩
    intro i m row hm hrow
    have hn : (maskLens mask)[i]? = some (m.count true) := by
      rw [maskLens, getElem?_map, hm, map_some]
    refine ⟨_, _, (cumulative_bounds hn).1, (cumulative_bounds hn).2, ?_⟩
    have hblock : (zipWith take (maskLens mask) rows)[i]? = some (maskTokens m row) := by
      rw [htokens, getElem?_zipWith, hm, hrow]
    have hslice := slice_flatten hblock
    rwa [hlens, sum_take_succ hn] at hslice
  · intro β padValue packed hlength
    obtain ⟨out, hout, htoken⟩ := unpack_token h.aligned padValue hlength
    refine ⟨out, hout, ?_⟩
    intro i m c hm hc
    obtain ⟨hlt, hcount⟩ := lt_count_of_leadingOnes (hones m (mem_of_getElem? hm)) hc
    rw [hcount]
    exact htoken i m c hm hlt
  · intro α β f engine empty padValue values hengine hfields hvalues
    subst hfields
    refine ⟨_, runPipelineWithPacking_eq hargsort h hengine empty padValue hvalues hsplit, ?_⟩
    intro i m c hm hc
    have hlt := (lt_count_of_leadingOnes (hones m (mem_of_getElem? hm)) hc).1
    rw [token_outRow f padValue hm hlt, filterMap_map]
    rfl

/-- Only masks whose ones come first are packed right: packing the mask itself shows it. -/
theorem leadingOnes_of_transparent (hmask : Aligned mask S mask)
    (h : Transparent argsort capacity others S mask fields) : ∀ m ∈ mask, LeadingOnes m := by
  obtain ⟨packed, hpacked, htokens, -⟩ := h.pack false mask hmask
  have hle := count_le_length hmask hmask
  have hlength : mask.length = (maskLens mask).length := by rw [maskLens, length_map]
  rw [packRows_eq false hlength hle] at hpacked
  have hflat := (some.inj hpacked).trans htokens
  have hself : zipWith maskTokens mask mask = mask.map fun m => maskTokens m m := zipWith_self
  have hlens : (zipWith take (maskLens mask) mask).map List.length =
      (zipWith maskTokens mask mask).map List.length := by
    rw [length_zipWith_take hlength hle, hself, maskLens, map_map]
    apply map_congr_left
    intro m hm
    simp [maskTokens_self]
  have hblocks := eq_iff_flatten_eq.mpr ⟨hflat, hlens⟩
  rw [hself, maskLens, zipWith_map_left, zipWith_self] at hblocks
  intro m hm
  exact leadingOnes_of_take (map_inj_left.mp hblocks m hm)

/-- An engine that counts the tokens of values that are all packed. -/
def countingEngine (T : Nat) (bag : List (Packed Unit)) : Option (List Unit) :=
  if ∀ p ∈ bag, p = .tokens (replicate T ()) then some (replicate T ()) else none

theorem countingEngine_perToken : PerToken (fun _ => ()) countingEngine := by
  intro T columns hcolumns
  have hall : ∀ p ∈ columns.map Packed.tokens, p = .tokens (replicate T ()) := by
    intro p hp
    obtain ⟨column, hcolumn, rfl⟩ := mem_map.mp hp
    congr 1
    exact eq_replicate_iff.mpr ⟨hcolumns column hcolumn, fun _ _ => rfl⟩
  rw [countingEngine, if_pos hall]
  simp

/-- A value that is not split reaches the engine whole in a call of several microbatches. -/
theorem splitOrTogether_of_transparent
    (hargsort : ∀ keys, (argsort keys).Perm (range keys.length))
    (h : Accepted capacity others S mask) (ht : Transparent argsort capacity others S mask fields) :
    SplitOrTogether capacity others mask fields := by
  by_contra hnot
  rw [SplitOrTogether, not_or] at hnot
  obtain ⟨hfield, hseveral⟩ := hnot
  push Not at hfield
  obtain ⟨field, hmem, hseq, hwidth⟩ := hfield
  have hunsplit : ¬field.Split mask.length S := by
    rw [split_iff h.rows h.columns]
    exact fun hor => hor.elim hseq hwidth
  -- the batch of units
  have hunits : Aligned mask S (replicate mask.length (replicate S ())) := by
    refine ⟨length_replicate, ?_⟩
    intro row hrow
    rw [eq_of_mem_replicate hrow, length_replicate]
  obtain ⟨out, hout, -⟩ := ht.pipeline (fun _ => ()) countingEngine () ()
    (fields.map fun field => ⟨field, replicate mask.length (replicate S ())⟩)
    countingEngine_perToken (by simp [comp_def]) (by
      intro v hv
      obtain ⟨field, -, rfl⟩ := mem_map.mp hv
      exact hunits)
  obtain ⟨groups, hgroups, hperm, hsorted, hsingle⟩ := accepted_groups hargsort h
  have hcount : groups.length ≠ 1 := fun hone => hseveral (hsingle.mp hone)
  have hpos := h.rows
  have hS := h.columns
  rw [runPipelineWithPacking, if_neg (by omega), hgroups] at hout
  dsimp only [bind_eq_bind, bind_some] at hout
  obtain ⟨outs, houts, -⟩ := bind_eq_some_iff.mp hout
  -- the first group has some of the rows
  cases groups with
  | nil =>
    have := hperm.length_eq
    simp at this
    omega
  | cons group rest =>
    have hsmall : group.length < mask.length := by
      have hlength := hperm.length_eq
      cases rest with
      | nil => exact absurd rfl hcount
      | cons other rest =>
        have hother : 0 < other.length := length_pos_iff.mpr (hsorted other (by simp)).1
        simp only [flatten_cons, length_append, length_range] at hlength
        omega
    have hrows : (maskLens (group.filterMap fun i => mask[i]?)).length ≤ group.length := by
      rw [maskLens, length_map]
      exact length_filterMap_le _ _
    obtain ⟨rows, -, hrun⟩ := Results.exists_of_mapM_eq_some houts (x := group) (by simp)
    rw [runMicrobatch] at hrun
    obtain ⟨packed, hpacked, hrun⟩ := bind_eq_some_iff.mp hrun
    obtain ⟨tokens, hengine, -⟩ := bind_eq_some_iff.mp hrun
    obtain ⟨p, hp, hpack⟩ := Results.exists_of_mapM_eq_some hpacked
      (x := replicate mask.length (replicate S ())) (by
        rw [map_map]
        refine mem_map.mpr ⟨field, hmem, ?_⟩
        rw [comp_apply, splitValue, if_neg hunsplit])
    rw [packValue, if_neg (by simp only [length_replicate]; omega)] at hpack
    rw [countingEngine, if_neg] at hengine
    · cases hengine
    · intro hall
      have := hall p hp
      rw [← some.inj hpack] at this
      cases this

/-- Pipeline packing is transparent exactly for masks whose ones come first and values that
are split or stay in one microbatch. -/
theorem transparent_iff (hargsort : ∀ keys, (argsort keys).Perm (range keys.length))
    (h : Accepted capacity others S mask) :
    Transparent argsort capacity others S mask fields ↔
      (∀ m ∈ mask, LeadingOnes m) ∧ SplitOrTogether capacity others mask fields := by
  constructor
  · intro ht
    exact ⟨leadingOnes_of_transparent h.aligned ht, splitOrTogether_of_transparent hargsort h ht⟩
  · intro hcond
    exact transparent_of hargsort h hcond.1 hcond.2

end Calls

/-- A stable `argsort`. -/
def stableArgsort (keys : List Int) : List Nat :=
  (range keys.length).mergeSort fun i j => keys.getD i 0 ≤ keys.getD j 0

/-- Two rows in two microbatches. -/
theorem transparent_iff_right_padded :
    Transparent stableArgsort 2 [] 3 [[true, true, false], [true, false, false]] [⟨false, 1⟩] ↔
      (∀ m ∈ [[true, true, false], [true, false, false]], LeadingOnes m) ∧
        SplitOrTogether 2 [] [[true, true, false], [true, false, false]] [⟨false, 1⟩] :=
  transparent_iff (fun _ => mergeSort_perm _ _)
    ⟨by decide, by decide, by simp [Aligned], by decide, by decide⟩

/-- A left-padded row: the padding is packed in place of the token. -/
theorem packRows_left_padded :
    packRows 0 (maskLens [[false, true]]) [[7, 8]] = some [7] ∧
      ∀ argsort, ¬Transparent argsort 10 [] 2 [[false, true]] [⟨false, 1⟩] := by
  refine ⟨by decide, ?_⟩
  intro argsort h
  obtain ⟨packed, hpacked, htokens, -⟩ := h.pack 0 [[7, 8]] (by simp [Aligned])
  have hpadding : packRows 0 (maskLens [[false, true]]) [[7, 8]] = some [7] := by decide
  rw [hpadding] at hpacked
  rw [← some.inj hpacked] at htokens
  exact absurd htokens (by decide)

end ArcticPlatform.PipelinePacking
