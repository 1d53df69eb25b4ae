import Mathlib.Data.Fintype.Card
import Mathlib.Data.Finset.Max

/-!
# The best entries of a family

A choice of the best `k` entries of a finite family of values, in any order and with any choice
between entries of one value.  Some entries can be masked: they all have one constant value.

Main results:

- Theorem `exists_isTopK`: there is a choice.
- Theorem `IsTopK.mem_iff`: which entries are chosen where no values are equal.
- Theorem `isTopK_masked_iff`: what is chosen where entries are masked.
-/

namespace TopK

open List

variable {ι α : Type} [DecidableEq ι] [LinearOrder α] {x y : ι → α} {k : Nat} {picks : List ι}

/-- The picks are `k` entries, and none of the others has a greater value than one of them. -/
structure IsTopK (x : ι → α) (k : Nat) (picks : List ι) : Prop where
  nodup : picks.Nodup
  length : picks.length = k
  best : ∀ i ∈ picks, ∀ j, j ∉ picks → x j ≤ x i

instance [Fintype ι] : Decidable (IsTopK x k picks) :=
  decidable_of_iff (picks.Nodup ∧ picks.length = k ∧ ∀ i ∈ picks, ∀ j, j ∉ picks → x j ≤ x i)
    ⟨fun h => ⟨h.1, h.2.1, h.2.2⟩, fun h => ⟨h.nodup, h.length, h.best⟩⟩

theorem exists_isTopK [Fintype ι] (x : ι → α) {k : Nat} (hk : k ≤ Fintype.card ι) :
    ∃ picks, IsTopK x k picks := by
  induction k with
  | zero => exact ⟨[], nodup_nil, rfl, by simp⟩
  | succ k ih =>
    obtain ⟨picks, h⟩ := ih (by omega)
    have hrest : (Finset.univ \ picks.toFinset).Nonempty := by
      rw [← Finset.card_pos, Finset.card_sdiff_of_subset (Finset.subset_univ _), Finset.card_univ,
        toFinset_card_of_nodup h.nodup, h.length]
      omega
    -- The greatest of the entries that are left is picked next.
    obtain ⟨j, hj, hmax⟩ := Finset.exists_max_image _ x hrest
    have hnew : j ∉ picks := by simpa using hj
    refine ⟨j :: picks, nodup_cons.mpr ⟨hnew, h.nodup⟩, by simp [h.length], ?_⟩
    intro i hi j' hj'
    obtain ⟨hne, hout⟩ := not_or.mp (fun hmem => hj' (mem_cons.mpr hmem))
    rcases mem_cons.mp hi with rfl | hold
    · exact hmax j' (by simpa using hout)
    · exact h.best i hold j' hout

omit [DecidableEq ι] in
theorem isTopK_congr (h : ∀ i j, x i ≤ x j ↔ y i ≤ y j) : IsTopK x k picks ↔ IsTopK y k picks :=
  ⟨fun hx => ⟨hx.nodup, hx.length, fun i hi j hj => (h j i).mp (hx.best i hi j hj)⟩,
    fun hy => ⟨hy.nodup, hy.length, fun i hi j hj => (h j i).mpr (hy.best i hi j hj)⟩⟩

/-- The picks are the entries that fewer than `k` others are greater than. -/
theorem IsTopK.mem_iff [Fintype ι] (h : IsTopK x k picks) (hinj : Function.Injective x) (i : ι) :
    i ∈ picks ↔ (Finset.univ.filter fun j => x i < x j).card < k := by
  have hcard : picks.toFinset.card = k := (toFinset_card_of_nodup h.nodup).trans h.length
  constructor
  · intro hi
    have hsub : (Finset.univ.filter fun j => x i < x j) ⊆ picks.toFinset.erase i := by
      intro j hj
      have hlt := (Finset.mem_filter.mp hj).2
      refine Finset.mem_erase.mpr ⟨fun heq => hlt.ne (congrArg x heq.symm), mem_toFinset.mpr ?_⟩
      by_contra hout
      exact absurd (h.best i hi j hout) (not_le.mpr hlt)
    have hle := Finset.card_le_card hsub
    rw [Finset.card_erase_of_mem (mem_toFinset.mpr hi), hcard] at hle
    have hpos : 0 < k := h.length ▸ length_pos_of_mem hi
    omega
  · intro hlt
    by_contra hout
    have hsub : picks.toFinset ⊆ Finset.univ.filter fun j => x i < x j := by
      intro j hj
      have hmem := mem_toFinset.mp hj
      refine Finset.mem_filter.mpr ⟨Finset.mem_univ j, lt_of_le_of_ne (h.best j hmem i hout) ?_⟩
      exact fun heq => hout (hinj heq ▸ hmem)
    have hle := Finset.card_le_card hsub
    omega

/-! ## Masked entries -/

section Masked

variable [Fintype ι] {inside : ι → Prop} [DecidablePred inside] {c : α}

/-- The entries outside get a constant value. -/
def masked (inside : ι → Prop) [DecidablePred inside] (x : ι → α) (c : α) (i : ι) : α :=
  if inside i then x i else c

/-- The entries inside that are greater than the constant. -/
def above (inside : ι → Prop) [DecidablePred inside] (x : ι → α) (c : α) : Finset ι :=
  Finset.univ.filter fun i => inside i ∧ c < x i

/-- The entries that are masked. -/
def outside (inside : ι → Prop) [DecidablePred inside] : Finset ι :=
  Finset.univ.filter fun i => ¬ inside i

/-- How many entries inside are picked, where some of them are greater than the constant. -/
def taken (k above outside : Nat) : Nat := max (min k above) (k - outside)

omit [DecidableEq ι] in
theorem mem_above {i : ι} : i ∈ above inside x c ↔ inside i ∧ c < x i := by simp [above]

omit [DecidableEq ι] in
theorem mem_outside {i : ι} : i ∈ outside inside ↔ ¬ inside i := by simp [outside]

/-- The picks inside are the best ones there, and their number depends on how many entries inside are
greater than the constant. -/
theorem isTopK_masked_iff (hne : ∀ i, inside i → (outside inside).Nonempty → x i ≠ c) :
    IsTopK (masked inside x c) k picks ↔ picks.Nodup ∧ picks.length = k ∧
      (picks.toFinset.filter inside).card = taken k (above inside x c).card (outside inside).card ∧
      ∀ i ∈ picks, ∀ j, j ∉ picks → inside i → inside j → x j ≤ x i := by
  have hin : ∀ {i}, inside i → masked inside x c i = x i := fun h => if_pos h
  have hout : ∀ {i}, ¬ inside i → masked inside x c i = c := fun h => if_neg h
  -- Every pick is inside or is one of those that are masked.
  have hparts : picks.Nodup → (picks.toFinset.filter inside).card +
      (picks.toFinset.filter fun i => ¬ inside i).card = picks.length := fun hnodup => by
    rw [Finset.card_filter_add_card_filter_not, toFinset_card_of_nodup hnodup]
  have hmasked : (picks.toFinset.filter fun i => ¬ inside i) ⊆ outside inside := fun i hi =>
    mem_outside.mpr (Finset.mem_filter.mp hi).2
  have hmaskedLe := Finset.card_le_card hmasked
  constructor
  · intro h
    refine ⟨h.nodup, h.length, ?_, fun i hi j hj hi' hj' => ?_⟩
    · have hsum := hparts h.nodup
      rw [h.length] at hsum
      rw [taken]
      rcases lt_trichotomy (picks.toFinset.filter inside).card (above inside x c).card with
        hlt | heq | hgt
      · -- An entry above the constant is left, so nothing is picked that is masked.
        obtain ⟨j, hj, hjout⟩ := Finset.exists_mem_notMem_of_card_lt_card hlt
        obtain ⟨hji, hjc⟩ := mem_above.mp hj
        have hjpicks : j ∉ picks := fun hmem =>
          hjout (Finset.mem_filter.mpr ⟨mem_toFinset.mpr hmem, hji⟩)
        have hnone : (picks.toFinset.filter fun i => ¬ inside i).card = 0 := by
          rw [Finset.card_eq_zero, Finset.filter_eq_empty_iff]
          intro i hi hi'
          have hle := h.best i (mem_toFinset.mp hi) j hjpicks
          rw [hin hji, hout hi'] at hle
          exact absurd hle (not_le.mpr hjc)
        omega
      · omega
      · -- An entry below the constant is picked, so all are that are masked.
        obtain ⟨i, hi, hiabove⟩ := Finset.exists_mem_notMem_of_card_lt_card hgt
        obtain ⟨himem, hii⟩ := Finset.mem_filter.mp hi
        have hall : (picks.toFinset.filter fun i => ¬ inside i) = outside inside := by
          refine Finset.Subset.antisymm hmasked fun j hj => ?_
          have hjout := mem_outside.mp hj
          refine Finset.mem_filter.mpr ⟨?_, hjout⟩
          by_contra hjpicks
          have hle := h.best i (mem_toFinset.mp himem) j
            (fun hmem => hjpicks (mem_toFinset.mpr hmem))
          rw [hin hii, hout hjout] at hle
          have hlt := lt_of_le_of_ne hle (hne i hii ⟨j, hj⟩).symm
          exact hiabove (mem_above.mpr ⟨hii, hlt⟩)
        rw [hall] at hsum
        omega
    · have hle := h.best i hi j hj
      rwa [hin hi', hin hj'] at hle
  · rintro ⟨hnodup, hlength, hcard, hbest⟩
    have hsum := hparts hnodup
    rw [hlength] at hsum
    rw [taken] at hcard
    refine ⟨hnodup, hlength, fun i hi j hj => ?_⟩
    by_cases hi' : inside i
    · by_cases hj' : inside j
      · rw [hin hi', hin hj']
        exact hbest i hi j hj hi' hj'
      · -- A masked entry is left, so only entries above the constant are picked.
        rw [hin hi', hout hj']
        by_contra hlt
        have hjout : j ∉ picks.toFinset.filter fun i => ¬ inside i := fun hmem =>
          hj (mem_toFinset.mp (Finset.mem_filter.mp hmem).1)
        have hless : (picks.toFinset.filter fun i => ¬ inside i).card < (outside inside).card :=
          Finset.card_lt_card ⟨hmasked, fun hsub => hjout (hsub (mem_outside.mpr hj'))⟩
        have hsub : insert i (above inside x c) ⊆ picks.toFinset.filter inside := by
          intro p hp
          rcases Finset.mem_insert.mp hp with rfl | habove
          · exact Finset.mem_filter.mpr ⟨mem_toFinset.mpr hi, hi'⟩
          · obtain ⟨hpi, hpc⟩ := mem_above.mp habove
            refine Finset.mem_filter.mpr ⟨?_, hpi⟩
            by_contra hpout
            have hle := hbest i hi p (fun hmem => hpout (mem_toFinset.mpr hmem)) hi' hpi
            exact hlt (hpc.le.trans hle)
        have hnew : i ∉ above inside x c := fun hmem => hlt (mem_above.mp hmem).2.le
        have hle := Finset.card_le_card hsub
        rw [Finset.card_insert_of_notMem hnew] at hle
        omega
    · by_cases hj' : inside j
      · -- A masked entry is picked, so all entries above the constant are.
        rw [hout hi', hin hj']
        by_contra hlt
        have hmem : i ∈ picks.toFinset.filter fun i => ¬ inside i :=
          Finset.mem_filter.mpr ⟨mem_toFinset.mpr hi, hi'⟩
        have hpos := Finset.card_pos.mpr ⟨i, hmem⟩
        have hsub : picks.toFinset.filter inside ⊆ (above inside x c).erase j := by
          intro p hp
          obtain ⟨hpmem, hpi⟩ := Finset.mem_filter.mp hp
          have hpicks := mem_toFinset.mp hpmem
          refine Finset.mem_erase.mpr ⟨fun heq => hj (heq ▸ hpicks), mem_above.mpr ⟨hpi, ?_⟩⟩
          exact (not_le.mp hlt).trans_le (hbest p hpicks j hj hpi hj')
        have hjabove : j ∈ above inside x c := mem_above.mpr ⟨hj', not_le.mp hlt⟩
        have hle := Finset.card_le_card hsub
        rw [Finset.card_erase_of_mem hjabove] at hle
        have hjpos := Finset.card_pos.mpr ⟨j, hjabove⟩
        omega
      · rw [hout hi', hout hj']

/-- Masked choices are the same for two values of the constant exactly if as many entries are picked
inside. -/
theorem isTopK_masked_iff_of_le (hk : k ≤ Fintype.card ι) {c' : α} (horder : ∀ i j, inside i →
      inside j → (x i ≤ x j ↔ y i ≤ y j)) (hx : ∀ i, inside i → (outside inside).Nonempty → x i ≠ c)
    (hy : ∀ i, inside i → (outside inside).Nonempty → y i ≠ c') :
    (∀ picks, IsTopK (masked inside x c) k picks ↔ IsTopK (masked inside y c') k picks) ↔
      taken k (above inside x c).card (outside inside).card =
        taken k (above inside y c').card (outside inside).card := by
  constructor
  · intro h
    obtain ⟨picks, hpicks⟩ := exists_isTopK (masked inside x c) hk
    have hcard := ((isTopK_masked_iff hx).mp hpicks).2.2.1
    exact hcard.symm.trans ((isTopK_masked_iff hy).mp ((h picks).mp hpicks)).2.2.1
  · intro htaken picks
    rw [isTopK_masked_iff hx, isTopK_masked_iff hy, htaken]
    refine and_congr_right fun _ => and_congr_right fun _ => and_congr_right fun _ => ?_
    refine forall₂_congr fun i _ => forall₂_congr fun j _ => ?_
    exact forall₂_congr fun hi hj => horder j i hj hi

end Masked

end TopK
