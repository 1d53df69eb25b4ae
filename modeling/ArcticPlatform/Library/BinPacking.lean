import Mathlib

/-!
# Packing items into bins of one capacity

Items of given sizes are put, in order, into bins that already have loads.  Whether
they fit depends on the loads only up to their order.  So of bins with one load a
search needs to try only one.

Main results:

- Theorem `fits_of_loads`: items that an assignment keeps within the capacity fit.
- Theorem `not_fits_cons`: a search that tries one bin of each load misses nothing.
-/

namespace BinPacking

open List

/-- The sizes of the items in the bin `rank`, added up. -/
def load {ι : Type*} (size : ι → Nat) (rankOf : ι → Option Nat) (items : List ι) (rank : Nat) :
    Nat := ((items.filter (rankOf · = some rank)).map size).sum

/-- Items of these sizes can be added to bins with these loads. -/
def Fits (cap : Nat) : List Nat → List Nat → Prop
  | _, [] => True
  | loads, size :: sizes =>
    ∃ a rest, loads.Perm (a :: rest) ∧ a + size ≤ cap ∧ Fits cap ((a + size) :: rest) sizes

variable {ι : Type*} {size : ι → Nat} {rankOf : ι → Option Nat} {cap : Nat}

@[simp] theorem load_nil (rank : Nat) : load size rankOf [] rank = 0 := rfl

theorem load_append (items items' : List ι) (rank : Nat) :
    load size rankOf (items ++ items') rank =
      load size rankOf items rank + load size rankOf items' rank := by
  simp [load]

theorem load_singleton (item : ι) (rank : Nat) :
    load size rankOf [item] rank = if rankOf item = some rank then size item else 0 := by
  by_cases h : rankOf item = some rank
  · simp [load, h]
  · simp [load, h]

theorem load_cons (item : ι) (items : List ι) (rank : Nat) :
    load size rankOf (item :: items) rank =
      (if rankOf item = some rank then size item else 0) + load size rankOf items rank := by
  rw [← singleton_append, load_append, load_singleton]

theorem load_congr {rankOf' : ι → Option Nat} {items : List ι}
    (h : ∀ item ∈ items, rankOf item = rankOf' item) (rank : Nat) :
    load size rankOf items rank = load size rankOf' items rank := by
  unfold load
  congr 2
  apply filter_congr
  intro item hitem
  rw [h item hitem]

theorem Fits.perm {loads loads' sizes : List Nat} (hperm : loads.Perm loads')
    (h : Fits cap loads sizes) : Fits cap loads' sizes := by
  cases sizes with
  | nil => trivial
  | cons size sizes =>
    obtain ⟨a, rest, hrest, hle, hfits⟩ := h
    exact ⟨a, rest, hperm.symm.trans hrest, hle, hfits⟩

theorem fits_cons_of_set {loads sizes : List Nat} {size rank : Nat} (hrank : rank < loads.length)
    (hle : loads.getD rank 0 + size ≤ cap)
    (h : Fits cap (loads.set rank (loads.getD rank 0 + size)) sizes) :
    Fits cap loads (size :: sizes) := by
  have hget : loads.getD rank 0 = loads[rank] := getD_eq_getElem loads 0 hrank
  refine ⟨loads.getD rank 0, loads.eraseIdx rank, ?_, hle, ?_⟩
  · rw [hget]
    exact (getElem_cons_eraseIdx_perm hrank).symm
  · exact h.perm (set_perm_cons_eraseIdx hrank _)

/-- Items that an assignment keeps within the capacity fit. -/
theorem fits_of_loads {loads : List Nat} {items : List ι}
    (hplaced : ∀ item ∈ items, ∃ rank < loads.length, rankOf item = some rank)
    (hwithin : ∀ rank < loads.length, loads.getD rank 0 + load size rankOf items rank ≤ cap) :
    Fits cap loads (items.map size) := by
  induction items generalizing loads with
  | nil => trivial
  | cons item items ih =>
    obtain ⟨chosen, hchosen, hof⟩ := hplaced item (mem_cons_self)
    have hroom := hwithin chosen hchosen
    rw [load_cons, if_pos hof] at hroom
    apply fits_cons_of_set hchosen (by omega)
    apply ih
    · intro other hother
      rw [length_set]
      exact hplaced other (mem_cons_of_mem _ hother)
    · intro rank hrank
      rw [length_set] at hrank
      have hle := hwithin rank hrank
      rw [load_cons] at hle
      by_cases heq : rank = chosen
      · subst heq
        rw [getD_eq_getElem _ 0 (by simpa using hrank), getElem_set_self]
        omega
      · have hother : (loads.set chosen (loads.getD chosen 0 + size item)).getD rank 0 =
            loads.getD rank 0 := by
          rw [getD_eq_getElem?_getD, getElem?_set_ne (Ne.symm heq), ← getD_eq_getElem?_getD]
        rw [hother]
        omega

/-- A search that tries, for each load with room, one bin of that load misses nothing. -/
theorem not_fits_cons {loads sizes ranks : List Nat} {size : Nat}
    (hcover : ∀ a ∈ loads, a + size ≤ cap →
      ∃ rank ∈ ranks, rank < loads.length ∧ loads.getD rank 0 = a)
    (hnone : ∀ rank ∈ ranks, ¬Fits cap (loads.set rank (loads.getD rank 0 + size)) sizes) :
    ¬Fits cap loads (size :: sizes) := by
  rintro ⟨a, rest, hperm, hle, hfits⟩
  obtain ⟨rank, hmem, hrank, ha⟩ := hcover a (hperm.mem_iff.mpr mem_cons_self) hle
  apply hnone rank hmem
  have hget : loads[rank] = a := by rw [← ha, getD_eq_getElem loads 0 hrank]
  -- The other bins are the same up to their order.
  have hrest : rest.Perm (loads.eraseIdx rank) := by
    apply List.Perm.cons_inv (a := a)
    apply hperm.symm.trans
    rw [← hget]
    exact (getElem_cons_eraseIdx_perm hrank).symm
  apply hfits.perm
  rw [ha]
  exact (hrest.cons _).trans (set_perm_cons_eraseIdx hrank _).symm

theorem eq_cap_of_sum_eq {loads : List Nat} (hle : ∀ a ∈ loads, a ≤ cap)
    (hsum : loads.sum = loads.length * cap) : ∀ a ∈ loads, a = cap := by
  induction loads with
  | nil => exact fun a ha => absurd ha not_mem_nil
  | cons b loads ih =>
    have hb := hle b mem_cons_self
    have hrest : loads.sum ≤ loads.length * cap := by
      rw [← smul_eq_mul]
      exact sum_le_card_nsmul loads cap fun a ha => hle a (mem_cons_of_mem _ ha)
    rw [sum_cons, length_cons, Nat.succ_mul] at hsum
    intro a ha
    rcases mem_cons.mp ha with rfl | ha
    · omega
    · exact ih (fun a ha => hle a (mem_cons_of_mem _ ha)) (by omega) a ha

end BinPacking
