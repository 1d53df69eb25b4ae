import ArcticPlatform.Library.IndexWrites
import ArcticPlatform.ZorroTrain.SplitAttention

/-!
# ZoRRoTrain: responses in the original sample order

The packed responses stand in group order.  `responses_in_orig_sample_order` puts
them back in sample order by an index for every token, computed from cumulative lengths
of the permuted samples.  The loop over the samples that its comment gives is the
specification.

Main results:

- Theorem `gatherIndices_eq`: the index of every token, sample by sample.
- Theorem `responsesInOrigSampleOrder_eq`: the responses in sample order, as the loop
  gives them.
-/

namespace ArcticPlatform.ZorroTrain

open IndexWrites Results Slices List
open Option hiding all_eq_true map_map min_eq_left

variable {α : Type}

/-! ## The code -/

/-- A tensor indexed by a tensor; `none` is an index error. -/
def gather {β : Type} (l : List β) (indices : List Nat) : Option (List β) :=
  indices.mapM (l[·]?)

/-- The inverse of a permutation; `uninit` is what `torch.empty` holds. -/
def invertOrder (uninit : Nat → Nat) (indicesOrder : List Nat) : List Nat :=
  (indicesOrder.zip (range indicesOrder.length)).foldl (fun inv entry => inv.set entry.1 entry.2)
    ((range indicesOrder.length).map uninit)

/-- The index of every token of the result. -/
def gatherIndices (uninit : Nat → Nat) (indicesOrder cuSeqlensResponse : List Nat) (total : Nat) :
    Option (List Nat) := do
  let lengths := zipWith (· - ·) cuSeqlensResponse.tail cuSeqlensResponse
  let invIndicesOrder := invertOrder uninit indicesOrder
  let origLengths ← gather lengths invIndicesOrder
  let origOffsets := cumulative origLengths
  let outputSampleId := ((range indicesOrder.length).zip origLengths).flatMap fun entry =>
    replicate entry.2 entry.1
  let starts ← gather origOffsets outputSampleId
  let posWithinSample := zipWith (· - ·) (range total) starts
  let inputPosition ← gather invIndicesOrder outputSampleId
  let inputStart ← gather cuSeqlensResponse inputPosition
  if outputSampleId.length = total then some (zipWith (· + ·) inputStart posWithinSample) else none

/-- `responses_in_orig_sample_order`. -/
def responsesInOrigSampleOrder (uninit : Nat → Nat) (packedResponses : List α)
    (promptGroups : List (List Nat)) (cuSeqlensResponse : List Nat) : Option (List α) :=
  let indicesOrder := promptGroups.flatten
  if (range indicesOrder.length).all fun i => indicesOrder.getD i 0 = i then some packedResponses
  else do
    let gatherIdx ← gatherIndices uninit indicesOrder cuSeqlensResponse packedResponses.length
    gather packedResponses gatherIdx

/-- The loop that the code replaces: the slice at every position is put at its sample. -/
def perSampleLoop (packedResponses : List α) (promptGroups : List (List Nat))
    (cuSeqlensResponse : List Nat) : Option (List α) := do
  let remap := promptGroups.flatten
  let entries ← (range remap.length).mapM fun curPos => do
    let origPos ← remap[curPos]?
    let start ← cuSeqlensResponse[curPos]?
    let stop ← cuSeqlensResponse[curPos + 1]?
    some (origPos, some (slice packedResponses start stop))
  let samples := entries.foldl (fun samples entry => samples.set entry.1 entry.2)
    (replicate remap.length none)
  (samples.mapM id).map flatten

/-! ## Indexing -/

theorem gather_map {β γ : Type} {l : List β} {f : γ → Nat} {g : γ → β} {xs : List γ}
    (h : ∀ x ∈ xs, l[f x]? = some (g x)) : gather l (xs.map f) = some (xs.map g) := by
  rw [gather, mapM_map]
  exact mapM_eq_some_map h

theorem gather_flatMap {β γ : Type} {l : List β} {f : γ → List Nat} {g : γ → List β}
    {xs : List γ} (h : ∀ x ∈ xs, gather l (f x) = some (g x)) :
    gather l (xs.flatMap f) = some (xs.flatMap g) := by
  induction xs with
  | nil => rfl
  | cons x xs ih =>
    have hhead := h x mem_cons_self
    have htail := ih fun y hy => h y (mem_cons_of_mem _ hy)
    rw [gather] at hhead htail ⊢
    rw [flatMap_cons, mapM_append, hhead, htail]
    rfl

theorem gather_block {β : Type} {blocks : List (List β)} {k : Nat} {block : List β}
    (hk : blocks[k]? = some block) :
    gather blocks.flatten
      ((range block.length).map (((blocks.map List.length).take k).sum + ·)) = some block := by
  rw [gather, mapM_map]
  exact mapM_range_getElem? rfl fun j hj => getElem?_flatten_add hk hj

section Order

variable {order : List Nat} {n : Nat}

theorem invertOrder_eq (hperm : order.Perm (range n)) (uninit : Nat → Nat) :
    invertOrder uninit order = (range n).map order.idxOf := by
  have hlength : order.length = n := by rw [hperm.length_eq, length_range]
  have hnodup : order.Nodup := hperm.nodup_iff.mpr nodup_range
  have hentries : order.zip (range order.length) = order.map fun i => (i, order.idxOf i) := by
    apply ext_getElem (by simp)
    intro k hk hk'
    simp [hnodup.idxOf_getElem]
  rw [invertOrder, hentries]
  exact foldl_set_perm order.idxOf hperm (by simp [hlength])

theorem getElem?_idxOf (hperm : order.Perm (range n)) {i : Nat} (hi : i < n) :
    order[order.idxOf i]? = some i := by
  have hmem : i ∈ order := hperm.mem_iff.mpr (mem_range.mpr hi)
  rw [getElem?_eq_getElem (idxOf_lt_length_of_mem hmem), getElem_idxOf]

/-! ## The index of every token -/

section Responses

variable (r : Nat → Nat)

/-- The start of a sample in sample order. -/
def offsetOf (i : Nat) : Nat := ((range i).map r).sum

/-- Every token of the result by its sample and its place there. -/
def tokens (n : Nat) : List (Nat × Nat) :=
  (range n).flatMap fun i => (range (r i)).map fun j => (i, j)

theorem mem_tokens {entry : Nat × Nat} : entry ∈ tokens r n ↔ entry.1 < n ∧ entry.2 < r entry.1 := by
  obtain ⟨i, j⟩ := entry
  simp [tokens]

theorem range_eq_tokens (n : Nat) :
    range (offsetOf r n) = (tokens r n).map fun entry => offsetOf r entry.1 + entry.2 := by
  induction n with
  | zero => rfl
  | succ n ih =>
    have hnext : offsetOf r (n + 1) = offsetOf r n + r n := by
      rw [offsetOf, range_succ, map_append, sum_append]
      simp [offsetOf]
    have htokens : tokens r (n + 1) = tokens r n ++ (range (r n)).map fun j => (n, j) := by
      rw [tokens, range_succ, flatMap_append, flatMap_singleton]
      rfl
    rw [hnext, htokens, range_add, ih, map_append, map_map]
    rfl

theorem repeat_eq_tokens (n : Nat) :
    (((range n).zip ((range n).map r)).flatMap fun entry => replicate entry.2 entry.1) =
      (tokens r n).map Prod.fst := by
  have hzip : (range n).zip ((range n).map r) = (range n).map fun i => (i, r i) := by
    apply ext_getElem (by simp)
    intro i hi hi'
    simp
  rw [hzip, tokens, flatMap_map, map_flatMap]
  apply flatMap_congr
  intro i _
  simp [map_map, Function.comp_def, map_const']

theorem take_sum_map (hi : i ≤ n) : (((range n).map r).take i).sum = offsetOf r i := by
  rw [← map_take, take_range, min_eq_left hi, offsetOf]

/-- The index of every token, sample by sample. -/
theorem gatherIndices_eq (hperm : order.Perm (range n)) (uninit : Nat → Nat) :
    gatherIndices uninit order (cumulative (order.map r)) (offsetOf r n) =
      some ((tokens r n).map fun entry =>
        ((order.map r).take (order.idxOf entry.1)).sum + entry.2) := by
  have hlength : order.length = n := by rw [hperm.length_eq, length_range]
  have horig : gather (order.map r) ((range n).map order.idxOf) = some ((range n).map r) :=
    gather_map fun i hi => by
      rw [getElem?_map, getElem?_idxOf hperm (mem_range.mp hi), map_some]
  have hstarts : gather (cumulative ((range n).map r)) ((tokens r n).map Prod.fst) =
      some ((tokens r n).map fun entry => offsetOf r entry.1) :=
    gather_map fun entry hentry => by
      have hlt := (mem_tokens r).mp hentry
      rw [cumulative_getElem? (by simpa using hlt.1.le), take_sum_map r hlt.1.le]
  have hposition : gather ((range n).map order.idxOf) ((tokens r n).map Prod.fst) =
      some ((tokens r n).map fun entry => order.idxOf entry.1) :=
    gather_map fun entry hentry => by
      rw [getElem?_map, getElem?_range ((mem_tokens r).mp hentry).1, map_some]
  have hinput : gather (cumulative (order.map r)) ((tokens r n).map fun entry => order.idxOf entry.1) =
      some ((tokens r n).map fun entry => ((order.map r).take (order.idxOf entry.1)).sum) :=
    gather_map fun entry hentry => by
      rw [cumulative_getElem? (by
        rw [length_map, hlength]
        have hmem := hperm.mem_iff.mpr (mem_range.mpr ((mem_tokens r).mp hentry).1)
        exact (hlength ▸ idxOf_lt_length_of_mem hmem).le)]
  have htotal : ((tokens r n).map Prod.fst).length = offsetOf r n := by
    have hrange := congrArg List.length (range_eq_tokens r n)
    simpa using hrange.symm
  simp only [gatherIndices, zipWith_sub_cumulative, invertOrder_eq hperm, horig, hlength,
    repeat_eq_tokens, hstarts, hposition, hinput, htotal, bind_eq_bind, bind_some, if_true,
    some.injEq]
  rw [range_eq_tokens, zipWith_map, zipWith_self, zipWith_map, zipWith_self]
  exact map_congr_left fun entry _ => by omega

end Responses

section Results

variable {promptGroups : List (List Nat)} (horder : promptGroups.flatten = order)
  (hperm : order.Perm (range n)) (responses : Nat → List α)

theorem lengths_eq (order : List Nat) (responses : Nat → List α) :
    order.map (fun i => (responses i).length) = (order.map responses).map List.length := by
  rw [map_map]
  rfl

include horder hperm

theorem vectorized_eq (uninit : Nat → Nat) :
    responsesInOrigSampleOrder uninit (order.flatMap responses) promptGroups
        (cumulative (order.map fun i => (responses i).length)) =
      some ((range n).flatMap responses) := by
  rw [responsesInOrigSampleOrder, horder]
  split_ifs with hid
  · have hidentity : order = range n := by
      rw [all_eq_true] at hid
      apply ext_getElem hperm.length_eq
      intro i hi hi'
      have hi'' := hid i (mem_range.mpr hi)
      rw [getD_eq_getElem _ _ hi, decide_eq_true_eq] at hi''
      rw [hi'', getElem_range]
    rw [hidentity]
  · have htotal : (order.flatMap responses).length = offsetOf (fun i => (responses i).length) n := by
      rw [length_flatMap]
      exact (hperm.map _).sum_eq
    rw [htotal, gatherIndices_eq _ hperm uninit, bind_eq_bind, bind_some, tokens, map_flatMap]
    apply gather_flatMap
    intro i hi
    have hblock : (order.map responses)[order.idxOf i]? = some (responses i) := by
      rw [getElem?_map, getElem?_idxOf hperm (mem_range.mp hi), map_some]
    rw [map_map, flatMap_def, lengths_eq]
    exact gather_block hblock

theorem perSampleLoop_eq :
    perSampleLoop (order.flatMap responses) promptGroups
        (cumulative (order.map fun i => (responses i).length)) =
      some ((range n).flatMap responses) := by
  have hlength : order.length = n := by rw [hperm.length_eq, length_range]
  have hwrites := foldl_set_perm (fun i => some (responses i)) hperm (length_replicate (a := none))
  have hsamples : (range n).mapM (id ∘ fun i => some (responses i)) =
      some ((range n).map responses) := mapM_eq_some_map fun _ _ => rfl
  rw [perSampleLoop, horder]
  dsimp only
  rw [mapM_range_getElem? (l := order.map fun i => (i, some (responses i))) (by simp), hlength,
    bind_eq_bind, bind_some, hwrites, mapM_map, hsamples, map_some, ← flatMap_def]
  intro k hk
  have hget : order[k]? = some order[k] := getElem?_eq_getElem hk
  have hblock : (order.map responses)[k]? = some (responses order[k]) := by
    rw [getElem?_map, hget, map_some]
  have hbound : k < (order.map fun i => (responses i).length).length := by rwa [length_map]
  rw [getElem?_map, hget, cumulative_getElem? hbound.le, cumulative_getElem? hbound]
  simp only [bind_eq_bind, bind_some, map_some, some.injEq, Prod.mk.injEq, true_and]
  rw [lengths_eq, flatMap_def]
  exact slice_flatten hblock

end Results

end Order

/-- The result is the responses in sample order, and that is what the loop gives. -/
theorem responsesInOrigSampleOrder_eq {n : Nat} {promptGroups : List (List Nat)}
    (hperm : promptGroups.flatten.Perm (range n)) (responses : Nat → List α) (uninit : Nat → Nat) :
    let packed := promptGroups.flatten.flatMap responses
    let cuSeqlens := cumulative (promptGroups.flatten.map fun i => (responses i).length)
    responsesInOrigSampleOrder uninit packed promptGroups cuSeqlens =
        some ((range n).flatMap responses) ∧
      perSampleLoop packed promptGroups cuSeqlens = some ((range n).flatMap responses) :=
  ⟨vectorized_eq rfl hperm responses uninit, perSampleLoop_eq rfl hperm responses⟩

/-- Two groups of three samples, the second sample without a response. -/
theorem responsesInOrigSampleOrder_two_groups :
    responsesInOrigSampleOrder (fun _ => 7) ["c", "d", "a"] [[2, 1], [0]] [0, 2, 2, 3] =
        some ["a", "c", "d"] ∧
      perSampleLoop ["c", "d", "a"] [[2, 1], [0]] [0, 2, 2, 3] = some ["a", "c", "d"] := by
  have hperm : ([[2, 1], [0]] : List (List Nat)).flatten.Perm (range 3) := by decide
  exact responsesInOrigSampleOrder_eq hperm
    (fun i => if i = 0 then ["a"] else if i = 2 then ["c", "d"] else []) _

end ArcticPlatform.ZorroTrain
