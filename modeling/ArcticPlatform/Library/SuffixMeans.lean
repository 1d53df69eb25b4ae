import Mathlib.Algebra.Order.BigOperators.Group.List
import Mathlib.Algebra.Order.Field.Basic
import Mathlib.Tactic

/-!
# Means of the suffixes of a sorted list

The mean of a list in decreasing order falls when its first element is taken away, so the
suffixes whose mean is below a bound are those behind one cut.

Main results:

- Theorem `suffixMean_anti`: means of shorter suffixes are no greater.
- Theorem `firstBelow_spec`: the first suffix with a mean below a bound, and all behind it.
-/

namespace SuffixMeans

open List

variable {K : Type*} [Field K] [LinearOrder K] [IsStrictOrderedRing K] {l : List K} {i j : Nat}

/-- The mean of the elements from position `i` on. -/
def suffixMean (l : List K) (i : Nat) : K := (l.drop i).sum / ((l.length - i : Nat) : K)

/-- Taking away an element that is no smaller than the others does not raise the mean. -/
theorem sum_div_le_cons {x : K} (hne : l ≠ []) (hx : ∀ y ∈ l, y ≤ x) :
    l.sum / (l.length : K) ≤ (x :: l).sum / ((x :: l).length : K) := by
  have hlength : (0 : K) < l.length := by exact_mod_cast length_pos_iff.mpr hne
  have hsum : l.sum ≤ l.length * x := by
    rw [← nsmul_eq_mul]
    exact sum_le_card_nsmul l x hx
  rw [sum_cons, length_cons, Nat.cast_succ, div_le_div_iff₀ hlength (by linarith)]
  nlinarith

theorem suffixMean_succ_le (hsorted : l.Pairwise (· ≥ ·)) (hi : i + 1 < l.length) :
    suffixMean l (i + 1) ≤ suffixMean l i := by
  have hdrop : l.drop i = l[i] :: l.drop (i + 1) := drop_eq_getElem_cons (by omega)
  have hne : l.drop (i + 1) ≠ [] := by
    intro hnil
    have := drop_eq_nil_iff.mp hnil
    omega
  have hle : ∀ y ∈ l.drop (i + 1), y ≤ l[i] := by
    have htail := hsorted.drop (i := i)
    rw [hdrop] at htail
    exact (pairwise_cons.mp htail).1
  have hmean := sum_div_le_cons hne hle
  rw [← hdrop, length_drop, length_drop] at hmean
  exact hmean

/-- Means of shorter suffixes are no greater. -/
theorem suffixMean_anti (hsorted : l.Pairwise (· ≥ ·)) (hij : i ≤ j) (hj : j < l.length) :
    suffixMean l j ≤ suffixMean l i := by
  induction j, hij using Nat.le_induction with
  | base => exact le_rfl
  | succ j hij ih => exact (suffixMean_succ_le hsorted hj).trans (ih (by omega))

/-- The first suffix with a mean below the bound. -/
def firstBelow (l : List K) (bound : K) : Option Nat :=
  ((List.range l.length).filter fun i => suffixMean l i < bound).head?

/-- The first suffix with a mean below a bound, and all behind it. -/
theorem firstBelow_spec (hsorted : l.Pairwise (· ≥ ·)) {bound : K} (hi : i < l.length) :
    suffixMean l i < bound ↔ ∃ c, firstBelow l bound = some c ∧ c ≤ i := by
  rw [firstBelow, head?_filter]
  constructor
  · intro hlt
    cases hfind : (List.range l.length).find? (fun i => suffixMean l i < bound) with
    | none =>
      rw [find?_eq_none] at hfind
      exact absurd hlt (by simpa using hfind i (mem_range.mpr hi))
    | some c =>
      refine ⟨c, rfl, ?_⟩
      rw [find?_range_eq_some] at hfind
      by_contra hci
      exact absurd hlt (by simpa using hfind.2.2 i (by omega))
  · rintro ⟨c, hfind, hci⟩
    rw [find?_range_eq_some] at hfind
    exact lt_of_le_of_lt (suffixMean_anti hsorted hci hi) (by simpa using hfind.1)

omit [IsStrictOrderedRing K] in
theorem firstBelow_lt {bound : K} {c : Nat} (h : firstBelow l bound = some c) : c < l.length := by
  rw [firstBelow] at h
  exact mem_range.mp (mem_of_mem_filter (mem_of_head? h))

end SuffixMeans
