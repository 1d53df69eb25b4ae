import ArcticPlatform.Library.TopK
import Mathlib.Data.Fintype.Prod
import Mathlib.Tactic.Linarith
import Mathlib.Tactic.Ring

/-!
# Routing of NemotronH with a shifted bias

An embedding of `NemotronHRouter.forward` and of the shift of the correction bias in
`converting_nemotron_h.py`, in exact arithmetic.  An expert is known by its group and its place
there, as in the view of the scores by groups.  `torch.topk` makes any choice of the greatest
entries, in any order.

Main results:

- Theorem `groupScore_shift`: a shift of the bias keeps the order of the groups.
- Theorem `shift_keeps_routing_iff`: when a shift of the bias keeps the routing.
-/

namespace ArcticPlatform.NemotronH

open TopK List Function

/-! ## The router -/

/-- The fields of a router with `nGroup` groups of `groupSize` experts. -/
structure Router where
  topK : Nat
  nGroup : Nat
  groupSize : Nat
  topkGroup : Nat
  normTopkProb : Bool

namespace Router

/-- An expert: its group, and its place in the group. -/
abbrev Expert (r : Router) := Fin r.nGroup × Fin r.groupSize

variable (r : Router)

/-- `scores_for_choice`. -/
def scoresForChoice (scores bias : r.Expert → ℚ) (expertBias : Option (r.Expert → ℚ))
    (e : r.Expert) : ℚ :=
  match expertBias with
  | none => scores e + bias e
  | some extra => scores e + bias e + extra e

/-- The sum of the two greatest scores of a group. -/
def groupScore (choice : r.Expert → ℚ) (g : Fin r.nGroup) : ℚ :=
  (((ofFn fun j => choice (g, j)).insertionSort (· ≥ ·)).take 2).sum

/-- `top_scores`. -/
def topScores (scores : r.Expert → ℚ) (experts : List r.Expert) : List ℚ :=
  let top := experts.map scores
  if r.normTopkProb then top.map (· / (top.sum + 1 / 10 ^ 20)) else top

/-- The experts that are selected for a token. -/
def Selects (choice : r.Expert → ℚ) (experts : List r.Expert) : Prop :=
  if r.nGroup > 1 then
    ∃ groups, IsTopK (r.groupScore choice) r.topkGroup groups ∧
      IsTopK (masked (fun e : r.Expert => e.1 ∈ groups) choice 0) r.topK experts
  else IsTopK choice r.topK experts

/-- The number of tokens of each expert. -/
def numTokensPerExpert (selected : List (List r.Expert)) (e : r.Expert) : Nat :=
  (selected.map (count e)).sum

/-- A result of `forward` for the scores of some tokens: the weights and the experts of every token,
and the number of tokens of each expert. -/
structure Forward (bias : r.Expert → ℚ) (expertBias : Option (r.Expert → ℚ))
    (scores : List (r.Expert → ℚ)) (weights : List (List ℚ)) (selected : List (List r.Expert))
    (counts : r.Expert → Nat) : Prop where
  length : selected.length = scores.length
  selects : ∀ token ∈ scores.zip selected,
    r.Selects (r.scoresForChoice token.1 bias expertBias) token.2
  weights_eq : weights = zipWith r.topScores scores selected
  counts_eq : counts = r.numTokensPerExpert selected

variable [NeZero r.nGroup] [NeZero r.groupSize]

/-- The least value of a bias. -/
def minBias (bias : r.Expert → ℚ) : ℚ :=
  Finset.univ.inf' ⟨(0, 0), Finset.mem_univ _⟩ bias

/-- The bias as the converter stores it. -/
def convertedBias (bias : r.Expert → ℚ) (e : r.Expert) : ℚ := bias e - r.minBias bias

end Router

variable {r : Router} {bias : r.Expert → ℚ} {expertBias : Option (r.Expert → ℚ)}

/-! ## Shifted scores -/

theorem scoresForChoice_shift (scores : r.Expert → ℚ) (m : ℚ) :
    r.scoresForChoice scores (fun e => bias e - m) expertBias =
      fun e => r.scoresForChoice scores bias expertBias e - m := by
  funext e
  cases expertBias with
  | none =>
    simp only [Router.scoresForChoice]
    ring
  | some extra =>
    simp only [Router.scoresForChoice]
    ring

/-- Every group's score is shifted twice. -/
theorem groupScore_shift (htwo : 2 ≤ r.groupSize) (choice : r.Expert → ℚ) (m : ℚ)
    (g : Fin r.nGroup) : r.groupScore (fun e => choice e - m) g = r.groupScore choice g - 2 * m := by
  have hsorted : (ofFn fun j => choice (g, j) - m).insertionSort (· ≥ ·) =
      ((ofFn fun j => choice (g, j)).insertionSort (· ≥ ·)).map (· - m) := by
    rw [map_insertionSort (· ≥ ·) (· ≥ ·) (· - m) _ fun a _ b _ => by simp, map_ofFn]
    rfl
  have hlength : ((ofFn fun j => choice (g, j)).insertionSort (· ≥ ·)).length = r.groupSize := by
    rw [length_insertionSort, length_ofFn]
  rw [Router.groupScore, Router.groupScore, hsorted]
  match h : (ofFn fun j => choice (g, j)).insertionSort (· ≥ ·), hlength with
  | [], hlength => simp at hlength; omega
  | [_], hlength => simp at hlength; omega
  | a :: b :: rest, _ =>
    simp only [map_cons, take_succ_cons, take_zero, sum_cons, sum_nil]
    ring

/-! ## Selection -/

namespace Router

variable (r)

/-- Fewer than `topk_group` groups have a greater score. -/
def Best (choice : r.Expert → ℚ) (g : Fin r.nGroup) : Prop :=
  (Finset.univ.filter fun g' => r.groupScore choice g < r.groupScore choice g').card < r.topkGroup

instance (choice : r.Expert → ℚ) (g : Fin r.nGroup) : Decidable (r.Best choice g) :=
  inferInstanceAs (Decidable (_ < _))

/-- How many experts of the best groups are selected, where those that are greater than a bound are the
ones that win over the masked experts. -/
def takenAbove (choice : r.Expert → ℚ) (bound : ℚ) : Nat :=
  taken r.topK (above (fun e : r.Expert => r.Best choice e.1) choice bound).card
    (outside fun e : r.Expert => r.Best choice e.1).card

/-- A shift moves as many experts of the best groups over zero as the selection depends on. -/
def ShiftKeeps (choice : r.Expert → ℚ) (shift : ℚ) : Prop :=
  r.nGroup ≤ 1 ∨ r.takenAbove choice 0 = r.takenAbove choice shift

instance (choice : r.Expert → ℚ) (shift : ℚ) : Decidable (r.ShiftKeeps choice shift) :=
  inferInstanceAs (Decidable (_ ∨ _))

/-- No two groups have one score, and no expert of the best groups has the score of the masked experts,
before or after the shift. -/
structure Untied (choice : r.Expert → ℚ) (shift : ℚ) : Prop where
  groups : 1 < r.nGroup → Injective (r.groupScore choice)
  experts : 1 < r.nGroup → ∀ e : r.Expert, r.Best choice e.1 → (∃ g, ¬ r.Best choice g) →
    choice e ≠ 0 ∧ choice e ≠ shift

instance (choice : r.Expert → ℚ) (shift : ℚ) : Decidable (r.Untied choice shift) :=
  decidable_of_iff ((1 < r.nGroup → Injective (r.groupScore choice)) ∧
      (1 < r.nGroup → ∀ e : r.Expert, r.Best choice e.1 → (∃ g, ¬ r.Best choice g) →
        choice e ≠ 0 ∧ choice e ≠ shift))
    ⟨fun h => ⟨h.1, h.2⟩, fun h => ⟨h.groups, h.experts⟩⟩

end Router

theorem best_shift (htwo : 2 ≤ r.groupSize) (choice : r.Expert → ℚ) (m : ℚ) (g : Fin r.nGroup) :
    r.Best (fun e => choice e - m) g ↔ r.Best choice g := by
  simp only [Router.Best, groupScore_shift htwo, sub_lt_sub_iff_right]

/-- The experts are the best ones of the best groups, where the others count as zero. -/
theorem selects_iff (hgroups : r.topkGroup ≤ r.nGroup) (hn : 1 < r.nGroup) {choice : r.Expert → ℚ}
    (hinj : Injective (r.groupScore choice)) (experts : List r.Expert) :
    r.Selects choice experts ↔
      IsTopK (masked (fun e : r.Expert => r.Best choice e.1) choice 0) r.topK experts := by
  have hmask : ∀ groups, IsTopK (r.groupScore choice) r.topkGroup groups →
      masked (fun e : r.Expert => e.1 ∈ groups) choice 0 =
        masked (fun e : r.Expert => r.Best choice e.1) choice 0 := by
    intro groups h
    funext e
    exact if_congr (h.mem_iff hinj e.1) rfl rfl
  rw [Router.Selects, if_pos hn]
  constructor
  · rintro ⟨groups, h, hexperts⟩
    rwa [← hmask groups h]
  · intro hexperts
    obtain ⟨groups, h⟩ := exists_isTopK (r.groupScore choice)
      (hgroups.trans_eq (Fintype.card_fin r.nGroup).symm)
    exact ⟨groups, h, by rwa [hmask groups h]⟩

theorem exists_selects (hgroups : r.topkGroup ≤ r.nGroup) (htop : r.topK ≤ r.nGroup * r.groupSize)
    (choice : r.Expert → ℚ) : ∃ experts, r.Selects choice experts := by
  have hcard : r.topK ≤ Fintype.card r.Expert := by simpa using htop
  unfold Router.Selects
  split
  · obtain ⟨groups, h⟩ := exists_isTopK (r.groupScore choice)
      (hgroups.trans_eq (Fintype.card_fin r.nGroup).symm)
    obtain ⟨experts, hexperts⟩ := exists_isTopK (masked (fun e : r.Expert => e.1 ∈ groups) choice 0)
      hcard
    exact ⟨experts, groups, h, hexperts⟩
  · exact exists_isTopK choice hcard

/-- When a shift keeps the selection for a token. -/
theorem selects_shift_iff (htwo : 2 ≤ r.groupSize) (hgroups : r.topkGroup ≤ r.nGroup)
    (htop : r.topK ≤ r.nGroup * r.groupSize) {choice : r.Expert → ℚ} {m : ℚ}
    (huntied : r.Untied choice m) :
    (∀ experts, r.Selects choice experts ↔ r.Selects (fun e => choice e - m) experts) ↔
      r.ShiftKeeps choice m := by
  have hcard : r.topK ≤ Fintype.card r.Expert := by simpa using htop
  by_cases hn : r.nGroup ≤ 1
  · -- Without groups the order of the experts is what matters.
    have hall : ∀ experts, r.Selects choice experts ↔ r.Selects (fun e => choice e - m) experts := by
      intro experts
      rw [Router.Selects, Router.Selects, if_neg (by omega), if_neg (by omega)]
      exact isTopK_congr fun i j => (sub_le_sub_iff_right m).symm
    exact iff_of_true hall (.inl hn)
  · have hlt : 1 < r.nGroup := by omega
    have hinj := huntied.groups hlt
    have hinj' : Injective (r.groupScore fun e => choice e - m) := by
      intro g g' heq
      rw [groupScore_shift htwo, groupScore_shift htwo] at heq
      exact hinj (sub_left_injective heq)
    have hmask : masked (fun e : r.Expert => r.Best (fun e => choice e - m) e.1) (fun e => choice e - m)
        0 = masked (fun e : r.Expert => r.Best choice e.1) (fun e => choice e - m) 0 := by
      funext e
      exact if_congr (best_shift htwo choice m e.1) rfl rfl
    have habove : above (fun e : r.Expert => r.Best choice e.1) (fun e => choice e - m) 0 =
        above (fun e : r.Expert => r.Best choice e.1) choice m := by
      ext e
      rw [mem_above, mem_above, sub_pos]
    have houtside : (outside fun e : r.Expert => r.Best choice e.1).Nonempty →
        ∃ g, ¬ r.Best choice g := by
      rintro ⟨e, he⟩
      exact ⟨e.1, (Finset.mem_filter.mp he).2⟩
    have horder : ∀ i j : r.Expert, r.Best choice i.1 → r.Best choice j.1 →
        (choice i ≤ choice j ↔ (fun e => choice e - m) i ≤ (fun e => choice e - m) j) :=
      fun i j _ _ => (sub_le_sub_iff_right m).symm
    have hx : ∀ e : r.Expert, r.Best choice e.1 →
        (outside fun e : r.Expert => r.Best choice e.1).Nonempty → choice e ≠ 0 :=
      fun e he hout => (huntied.experts hlt e he (houtside hout)).1
    have hy : ∀ e : r.Expert, r.Best choice e.1 →
        (outside fun e : r.Expert => r.Best choice e.1).Nonempty → (fun e => choice e - m) e ≠ 0 :=
      fun e he hout => sub_ne_zero.mpr (huntied.experts hlt e he (houtside hout)).2
    have hiff := isTopK_masked_iff_of_le hcard horder hx hy
    rw [habove] at hiff
    simp only [selects_iff hgroups hlt hinj, selects_iff hgroups hlt hinj', hmask]
    exact hiff.trans (or_iff_right hn).symm

/-! ## Results -/

/-- What holds of every result for some tokens holds of every selection for one of them. -/
theorem selects_of_forward (hgroups : r.topkGroup ≤ r.nGroup) (htop : r.topK ≤ r.nGroup * r.groupSize)
    {bias' : r.Expert → ℚ} {scores : List (r.Expert → ℚ)}
    (h : ∀ weights selected counts, r.Forward bias expertBias scores weights selected counts →
      r.Forward bias' expertBias scores weights selected counts) {row : r.Expert → ℚ}
    (hrow : row ∈ scores) {experts : List r.Expert}
    (hselects : r.Selects (r.scoresForChoice row bias expertBias) experts) :
    r.Selects (r.scoresForChoice row bias' expertBias) experts := by
  classical
  choose pick hpick using fun row => exists_selects hgroups htop (r.scoresForChoice row bias expertBias)
  -- The token gets the experts, and every other one a selection of its own.
  obtain ⟨result, hresult⟩ : ∃ result : (r.Expert → ℚ) → List r.Expert,
      result = fun row' => if row' = row then experts else pick row' := ⟨_, rfl⟩
  have hforward := h (zipWith r.topScores scores (scores.map result)) (scores.map result)
    (r.numTokensPerExpert (scores.map result))
    { length := length_map _
      selects := by
        intro token htoken
        rw [← map_prod_left_eq_zip] at htoken
        obtain ⟨row', -, rfl⟩ := mem_map.mp htoken
        rw [hresult]
        dsimp only
        split
        · rename_i heq
          rwa [heq]
        · exact hpick row'
      weights_eq := rfl
      counts_eq := rfl }
  have hmem : (row, experts) ∈ scores.zip (scores.map result) := by
    rw [← map_prod_left_eq_zip]
    exact mem_map.mpr ⟨row, hrow, by rw [hresult]; simp⟩
  exact hforward.selects _ hmem

section Converted

variable [NeZero r.nGroup] [NeZero r.groupSize]

/-- The bias that the converter stores gives the results of the original one exactly if the shift keeps
the selection for every token. -/
theorem shift_keeps_routing_iff (htwo : 2 ≤ r.groupSize) (hgroups : r.topkGroup ≤ r.nGroup)
    (htop : r.topK ≤ r.topkGroup * r.groupSize) {scores : List (r.Expert → ℚ)}
    (huntied : ∀ row ∈ scores, r.Untied (r.scoresForChoice row bias expertBias) (r.minBias bias)) :
    (∀ weights selected counts, r.Forward bias expertBias scores weights selected counts ↔
      r.Forward (r.convertedBias bias) expertBias scores weights selected counts) ↔
      ∀ row ∈ scores, r.ShiftKeeps (r.scoresForChoice row bias expertBias) (r.minBias bias) := by
  have htop' : r.topK ≤ r.nGroup * r.groupSize := htop.trans (Nat.mul_le_mul_right _ hgroups)
  have hrow : ∀ row ∈ scores, (∀ experts,
      r.Selects (r.scoresForChoice row bias expertBias) experts ↔
        r.Selects (r.scoresForChoice row (r.convertedBias bias) expertBias) experts) ↔
      r.ShiftKeeps (r.scoresForChoice row bias expertBias) (r.minBias bias) := by
    intro row hmem
    have hconverted : r.convertedBias bias = fun e => bias e - r.minBias bias := rfl
    rw [hconverted, scoresForChoice_shift]
    exact selects_shift_iff htwo hgroups htop' (huntied row hmem)
  constructor
  · intro h row hmem
    refine (hrow row hmem).mp fun experts => ⟨fun hselects => ?_, fun hselects => ?_⟩
    · exact selects_of_forward hgroups htop' (fun w s c => (h w s c).mp) hmem hselects
    · exact selects_of_forward hgroups htop' (fun w s c => (h w s c).mpr) hmem hselects
  · intro h weights selected counts
    have hselects : (∀ token ∈ scores.zip selected,
        r.Selects (r.scoresForChoice token.1 bias expertBias) token.2) ↔
        ∀ token ∈ scores.zip selected,
          r.Selects (r.scoresForChoice token.1 (r.convertedBias bias) expertBias) token.2 := by
      refine forall₂_congr fun token htoken => ?_
      have hmem := (of_mem_zip htoken).1
      exact (hrow _ hmem).mpr (h _ hmem) token.2
    exact ⟨fun hf => ⟨hf.length, hselects.mp hf.selects, hf.weights_eq, hf.counts_eq⟩,
      fun hf => ⟨hf.length, hselects.mpr hf.selects, hf.weights_eq, hf.counts_eq⟩⟩

end Converted

/-- Four experts in two groups, with biases about 57: the shift keeps the routing. -/
theorem shift_keeps_routing_positive :
    let r : Router := ⟨1, 2, 2, 1, true⟩
    let bias : r.Expert → ℚ := fun e => 57 + e.1.val / 100
    let scores : r.Expert → ℚ := fun e => 1 / (2 + 2 * e.1.val + e.2.val)
    ∀ weights selected counts, r.Forward bias none [scores] weights selected counts ↔
      r.Forward (r.convertedBias bias) none [scores] weights selected counts :=
  (shift_keeps_routing_iff (r := ⟨1, 2, 2, 1, true⟩) (by decide) (by decide) (by decide)
    (by decide +kernel)).mpr (by decide +kernel)

/-- Four experts in two groups, with biases of -10: the masked experts of the second group have the
greatest scores, and after the shift the experts of the first one do. -/
theorem negative_bias_changes_routing :
    let r : Router := ⟨2, 2, 2, 1, true⟩
    let bias : r.Expert → ℚ := fun _ => -10
    let scores : r.Expert → ℚ := fun e => 1 / (2 + 2 * e.1.val + e.2.val)
    ¬ ∀ weights selected counts, r.Forward bias none [scores] weights selected counts ↔
      r.Forward (r.convertedBias bias) none [scores] weights selected counts := by
  intro r bias scores h
  have hgroups : r.topkGroup ≤ r.nGroup := by decide
  have htop : r.topK ≤ r.nGroup * r.groupSize := by decide
  have hfirst : r.Selects (r.scoresForChoice scores (r.convertedBias bias) none) [(0, 0), (0, 1)] :=
    (selects_iff hgroups (by decide) (by decide +kernel) _).mpr (by decide +kernel)
  have hold := selects_of_forward hgroups htop (fun w s c => (h w s c).mpr) mem_cons_self hfirst
  exact absurd ((selects_iff hgroups (by decide) (by decide +kernel) _).mp hold) (by decide +kernel)

end ArcticPlatform.NemotronH
