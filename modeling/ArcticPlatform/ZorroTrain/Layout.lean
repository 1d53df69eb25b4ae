import ArcticPlatform.Library.Results
import ArcticPlatform.ZorroTrain.Groups
import Mathlib

/-!
# ZoRRoTrain: the packed layout of a batch

The deduplicated tensor of a batch is a list of blocks: for every group the
prompt block and then one response block for each of its samples.  Each function
of the source recomputes the boundaries of these blocks from
`segment_info`; here they are computed once, from the groups and the numbers
of valid tokens.

Main results:

- Theorem `lookup_layoutPositions`: the positions cut the blocks out of
  every tensor with that layout.
- Theorem `exists_blocks`: every tensor of the right length has the layout.
-/

namespace ArcticPlatform.ZorroTrain

open Slices List Function

/-! ## Lists -/

theorem sortedKeys_eq {keys sorted : List Nat} (hsorted : sorted.Pairwise (· < ·))
    (hmem : ∀ k, k ∈ keys ↔ k ∈ sorted) : sortedKeys keys = sorted := by
  have hnodup : sorted.Nodup := hsorted.imp fun h => h.ne
  have hperm : (sortedKeys keys).Perm sorted := by
    refine (mergeSort_perm _ _).trans ?_
    rw [perm_ext_iff_of_nodup (nodup_dedup _) hnodup]
    intro k
    rw [mem_dedup, hmem]
  have hle : (sortedKeys keys).Pairwise (· ≤ ·) := pairwise_mergeSort' (· ≤ ·) _
  exact hperm.eq_of_pairwise' hle (hsorted.imp fun h => h.le)

theorem lookup_cons_self {β : Type} (k : Nat) (v : β) (l : List (Nat × β)) :
    List.lookup k ((k, v) :: l) = some v := by
  simp [List.lookup]

theorem lookup_cons_ne {β : Type} {k j : Nat} (h : k ≠ j) (v : β) (l : List (Nat × β)) :
    List.lookup k ((j, v) :: l) = List.lookup k l := by
  have : (k == j) = false := by simpa using h
  simp [List.lookup, this]

/-! ## Layouts -/

section Layouts

variable {α : Type} (p r : Nat → Nat) (P R : Nat → List α)

/-- A tensor in dedup layout, from its prompt blocks by group and response blocks by sample. -/
def layout : Nat → List (List Nat) → List α
  | _, [] => []
  | k, group :: groups => P k ++ group.flatMap R ++ layout (k + 1) groups

/-- Number of tokens of a tensor in dedup layout. -/
def layoutLength (groups : List (List Nat)) : Nat :=
  (groups.map fun group => p (group.headD 0) + (group.map r).sum).sum

/-- Positions of consecutive responses. -/
def layoutResponses : Nat → List Nat → List (Nat × Nat × Nat)
  | _, [] => []
  | pos, i :: rest => (i, pos, pos + r i) :: layoutResponses (pos + r i) rest

/-- Positions of the blocks of consecutive groups. -/
def layoutPositions : Nat → Nat → List (List Nat) → List (Nat × GroupPositions)
  | _, _, [] => []
  | k, pos, group :: groups =>
    (k, ⟨(pos, pos + p (group.headD 0)), layoutResponses r (pos + p (group.headD 0)) group⟩) ::
      layoutPositions (k + 1) (pos + p (group.headD 0) + (group.map r).sum) groups

/-- The blocks have the given lengths. -/
structure Blocks (k : Nat) (groups : List (List Nat)) : Prop where
  prompt : ∀ m group, groups[m]? = some group → (P (k + m)).length = p (group.headD 0)
  response : ∀ i ∈ groups.flatten, (R i).length = r i

variable {p r P R}

theorem layoutLength_cons (group : List Nat) (groups : List (List Nat)) :
    layoutLength p r (group :: groups) =
      p (group.headD 0) + (group.map r).sum + layoutLength p r groups := by
  simp [layoutLength]

variable {k : Nat} {group : List Nat} {groups : List (List Nat)}

section

variable (h : Blocks p r P R k (group :: groups))
include h

theorem Blocks.tail : Blocks p r P R (k + 1) groups := by
  refine ⟨fun m g hg => ?_, fun i hi => h.response i ?_⟩
  · have hnext : k + (m + 1) = k + 1 + m := by omega
    exact hnext ▸ h.prompt (m + 1) g (by simpa using hg)
  · rw [flatten_cons]
    exact mem_append_right _ hi

theorem Blocks.head : (P k).length = p (group.headD 0) := h.prompt 0 group rfl

theorem Blocks.response_head : ∀ i ∈ group, (R i).length = r i := by
  intro i hi
  exact h.response i (by rw [flatten_cons]; exact mem_append_left _ hi)

end

theorem length_flatMap_eq {l : List Nat} (h : ∀ i ∈ l, (R i).length = r i) :
    (l.flatMap R).length = (l.map r).sum := by
  rw [length_flatMap]
  exact congrArg List.sum (map_congr_left h)

theorem lookup_layoutResponses (hnodup : group.Nodup) (hR : ∀ i ∈ group, (R i).length = r i)
    {A C : List α} {pos : Nat} (hA : A.length = pos) {i : Nat} (hi : i ∈ group) :
    ∃ range, (layoutResponses r pos group).lookup i = some range ∧
      slice (A ++ group.flatMap R ++ C) range.1 range.2 = R i := by
  induction group generalizing A pos with
  | nil => simp at hi
  | cons j rest ih =>
    rw [nodup_cons] at hnodup
    by_cases hij : i = j
    · subst hij
      refine ⟨_, lookup_cons_self _ _ _, ?_⟩
      rw [flatMap_cons, ← append_assoc, append_assoc (A ++ R i)]
      exact slice_append hA (by rw [hR i mem_cons_self])
    · have hrest := (mem_cons.mp hi).resolve_left hij
      obtain ⟨range, hlook, hslice⟩ := ih hnodup.2 (fun i hi => hR i (mem_cons_of_mem j hi))
        (A := A ++ R j) (by rw [length_append, hA, hR j mem_cons_self]) hrest
      refine ⟨range, (lookup_cons_ne hij _ _).trans hlook, ?_⟩
      rw [flatMap_cons, ← append_assoc]
      exact hslice

/-- The positions cut the blocks out of every tensor with the layout. -/
theorem lookup_layoutPositions (hnodup : groups.flatten.Nodup) (hB : Blocks p r P R k groups)
    {A C : List α} {pos : Nat} (hA : A.length = pos) {m : Nat} (hm : groups[m]? = some group) :
    ∃ positions, (layoutPositions p r k pos groups).lookup (k + m) = some positions ∧
      slice (A ++ layout P R k groups ++ C) positions.prompt.1 positions.prompt.2 = P (k + m) ∧
      ∀ i ∈ group, ∃ range, positions.responses.lookup i = some range ∧
        slice (A ++ layout P R k groups ++ C) range.1 range.2 = R i := by
  induction groups generalizing k m A pos with
  | nil => simp at hm
  | cons group₀ groups ih =>
    rw [flatten_cons, nodup_append] at hnodup
    cases m with
    | zero =>
      obtain rfl : group₀ = group := by simpa using hm
      refine ⟨_, lookup_cons_self _ _ _, ?_, ?_⟩
      · have : A ++ layout P R k (group₀ :: groups) ++ C =
            A ++ P k ++ (group₀.flatMap R ++ layout P R (k + 1) groups ++ C) := by
          simp [layout, append_assoc]
        rw [this]
        exact slice_append hA (by rw [hB.head])
      · intro i hi
        have hsplit : A ++ layout P R k (group₀ :: groups) ++ C =
            (A ++ P k) ++ group₀.flatMap R ++ (layout P R (k + 1) groups ++ C) := by
          simp [layout, append_assoc]
        rw [hsplit]
        exact lookup_layoutResponses hnodup.1 hB.response_head
          (by rw [length_append, hA, hB.head]) hi
    | succ m =>
      have hne : k + (m + 1) ≠ k := by omega
      have hsplit : A ++ layout P R k (group₀ :: groups) ++ C =
          (A ++ P k ++ group₀.flatMap R) ++ layout P R (k + 1) groups ++ C := by
        simp [layout, append_assoc]
      have hA' : (A ++ P k ++ group₀.flatMap R).length =
          pos + p (group₀.headD 0) + (group₀.map r).sum := by
        rw [length_append, length_append, hA, hB.head, length_flatMap_eq hB.response_head]
      obtain ⟨positions, hlook, hprompt, hresp⟩ := ih hnodup.2.1 hB.tail hA' (by simpa using hm)
      rw [add_right_comm] at hlook hprompt
      refine ⟨positions, (lookup_cons_ne hne _ _).trans hlook, ?_, ?_⟩
      · rw [hsplit]
        exact hprompt
      · rw [hsplit]
        exact hresp

theorem length_layout (hB : Blocks p r P R k groups) :
    (layout P R k groups).length = layoutLength p r groups := by
  induction groups generalizing k with
  | nil => rfl
  | cons group groups ih =>
    rw [layout, length_append, length_append, hB.head,
      length_flatMap_eq hB.response_head, ih hB.tail, layoutLength_cons]

theorem exists_responses (hnodup : group.Nodup) (r : Nat → Nat) {X : List α}
    (hX : X.length = (group.map r).sum) :
    ∃ R : Nat → List α, (∀ i ∈ group, (R i).length = r i) ∧ X = group.flatMap R := by
  induction group generalizing X with
  | nil => exact ⟨fun _ => [], by simp, by simpa using hX⟩
  | cons j rest ih =>
    rw [nodup_cons] at hnodup
    rw [map_cons, sum_cons] at hX
    obtain ⟨R, hR, hrest⟩ := ih hnodup.2 (X := X.drop (r j))
      (by rw [length_drop]; omega)
    refine ⟨Function.update R j (X.take (r j)), ?_, ?_⟩
    · intro i hi
      by_cases hij : i = j
      · subst hij
        rw [update_self, length_take]
        omega
      · rw [update_of_ne hij]
        exact hR i ((mem_cons.mp hi).resolve_left hij)
    · have hcongr : rest.flatMap (Function.update R j (X.take (r j))) = rest.flatMap R := by
        apply flatMap_congr
        intro i hi
        have : i ≠ j := by
          rintro rfl
          exact hnodup.1 hi
        rw [update_of_ne this]
      rw [flatMap_cons, update_self, hcongr, ← hrest, take_append_drop]

/-- Every tensor of the right length has the layout. -/
theorem exists_blocks (hnodup : groups.flatten.Nodup) (p r : Nat → Nat) (k : Nat) {X : List α}
    (hX : X.length = layoutLength p r groups) :
    ∃ P R : Nat → List α, Blocks p r P R k groups ∧ X = layout P R k groups := by
  induction groups generalizing k X with
  | nil =>
    refine ⟨fun _ => [], fun _ => [], ⟨by simp, by simp⟩, ?_⟩
    simpa [layoutLength, layout] using hX
  | cons group groups ih =>
    rw [flatten_cons, nodup_append] at hnodup
    obtain ⟨hgroup, hrest, hdisjoint⟩ := hnodup
    rw [layoutLength_cons] at hX
    obtain ⟨P, R, hB, hlay⟩ := ih hrest (k + 1)
      (X := X.drop (p (group.headD 0) + (group.map r).sum))
      (by rw [length_drop]; omega)
    obtain ⟨R', hR', hresp⟩ := exists_responses hgroup r
      (X := (X.drop (p (group.headD 0))).take (group.map r).sum)
      (by rw [length_take, length_drop]; omega)
    let R'' : Nat → List α := fun i => if i ∈ group then R' i else R i
    have hin : ∀ i ∈ group, R'' i = R' i := fun i hi => if_pos hi
    have hout : ∀ i ∈ groups.flatten, R'' i = R i := by
      intro i hi
      exact if_neg fun hmem => hdisjoint i hmem i hi rfl
    have hB' : Blocks p r (Function.update P k (X.take (p (group.headD 0)))) R'' k
        (group :: groups) := by
      refine ⟨fun m g hm => ?_, fun i hi => ?_⟩
      · cases m with
        | zero =>
          obtain rfl : group = g := by simpa using hm
          rw [add_zero, update_self, length_take]
          omega
        | succ m =>
          rw [update_of_ne (by omega)]
          have := hB.prompt m g (by simpa using hm)
          rwa [add_right_comm] at this
      · rw [flatten_cons, mem_append] at hi
        by_cases hmem : i ∈ group
        · rw [hin i hmem]
          exact hR' i hmem
        · have hi' := hi.resolve_left hmem
          rw [hout i hi']
          exact hB.response i hi'
    refine ⟨_, _, hB', ?_⟩
    have htail : ∀ (groups : List (List Nat)) (k' : Nat), k < k' →
        (∀ i ∈ groups.flatten, R'' i = R i) →
        layout (Function.update P k (X.take (p (group.headD 0)))) R'' k' groups =
          layout P R k' groups := by
      intro groups
      induction groups with
      | nil => intros; rfl
      | cons g gs ih =>
        intro k' hk' hR
        have hg : g.flatMap R'' = g.flatMap R := by
          apply flatMap_congr
          intro i hi
          exact hR i (by rw [flatten_cons]; exact mem_append_left _ hi)
        rw [layout, layout, update_of_ne (by omega), hg, ih (k' + 1) (by omega)
          fun i hi => hR i (by rw [flatten_cons]; exact mem_append_right _ hi)]
    have hhead : group.flatMap R'' = (X.drop (p (group.headD 0))).take (group.map r).sum := by
      rw [hresp]
      exact flatMap_congr hin
    rw [layout, update_self, htail groups (k + 1) (Nat.lt_succ_self k) hout, hhead,
      ← hlay, ← drop_drop, append_assoc, take_append_drop, take_append_drop]

end Layouts

end ArcticPlatform.ZorroTrain
