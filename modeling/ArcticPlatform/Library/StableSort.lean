import Mathlib.Algebra.BigOperators.Group.List.Lemmas
import Mathlib.Data.List.Sort

/-!
# Stable sorts by a small key

A stable sort by a key below a bound puts the elements of each key together, in the order
they had.

Main results:

- Theorem `mergeSort_key`: the sorted list, key by key.
- Theorem `argsort_eq`: the positions, key by key.
- Theorem `argsort_perm`: every position is there once.
-/

namespace StableSort

open List

variable {α : Type*} (key : α → Nat)

/-- The order of the keys. -/
def keyLe (a b : α) : Bool := decide (key a ≤ key b)

theorem keyLe_trans (a b c : α) (hab : keyLe key a b = true) (hbc : keyLe key b c = true) :
    keyLe key a c = true := by
  simp only [keyLe, decide_eq_true_eq] at *
  omega

theorem keyLe_total (a b : α) : (keyLe key a b || keyLe key b a) = true := by
  simp only [keyLe, Bool.or_eq_true, decide_eq_true_eq]
  omega

variable {l : List α} {n : Nat}

/-- A sorted list is cut at a key. -/
theorem filter_lt_append_filter_eq (hsorted : l.Pairwise fun a b => keyLe key a b = true)
    (hkey : ∀ a ∈ l, key a < n + 1) :
    l.filter (fun a => key a < n) ++ l.filter (fun a => key a = n) = l := by
  induction l with
  | nil => rfl
  | cons x l ih =>
    obtain ⟨hx, hl⟩ := pairwise_cons.mp hsorted
    have hrest := ih hl fun a ha => hkey a (mem_cons_of_mem _ ha)
    by_cases hlt : key x < n
    · have hne : key x ≠ n := by omega
      simp only [filter_cons, hlt, hne, decide_true, decide_false, if_true,
        Bool.false_eq_true, if_false, cons_append, hrest]
    · have heq : key x = n := by
        have hbound := hkey x mem_cons_self
        omega
      -- all keys behind are the greatest one
      have hnone : l.filter (fun a => key a < n) = [] := by
        rw [filter_eq_nil_iff]
        intro a ha
        have hle := hx a ha
        simp only [keyLe, decide_eq_true_eq] at hle ⊢
        omega
      rw [hnone, nil_append] at hrest
      simp [heq, hnone, hrest]

/-- A sorted list, key by key. -/
theorem sorted_eq_flatMap (hsorted : l.Pairwise fun a b => keyLe key a b = true)
    (hkey : ∀ a ∈ l, key a < n) :
    l = (range n).flatMap fun k => l.filter fun a => key a = k := by
  induction n generalizing l with
  | zero =>
    cases l with
    | nil => rfl
    | cons x l => exact absurd (hkey x mem_cons_self) (Nat.not_lt_zero _)
  | succ n ih =>
    have hlow : ∀ a ∈ l.filter (fun a => key a < n), key a < n := by
      intro a ha
      simpa using of_mem_filter ha
    have hrest := ih (hsorted.filter fun a => key a < n) hlow
    have hsame : ((range n).flatMap fun k =>
        (l.filter fun a => key a < n).filter fun a => key a = k) =
        (range n).flatMap fun k => l.filter fun a => key a = k := by
      apply flatMap_congr
      intro k hk
      rw [filter_filter]
      apply filter_congr
      intro a _
      have hlt := mem_range.mp hk
      by_cases heq : key a = k <;> simp [heq, hlt]
    rw [range_succ, flatMap_append, ← hsame, ← hrest, flatMap_singleton]
    exact (filter_lt_append_filter_eq key hsorted hkey).symm

theorem filter_mergeSort (l : List α) (k : Nat) :
    (l.mergeSort (keyLe key)).filter (fun a => key a = k) = l.filter fun a => key a = k := by
  have hsorted : (l.filter fun a => key a = k).Pairwise fun a b => keyLe key a b = true := by
    rw [pairwise_iff_forall_sublist]
    intro a b hab
    have ha := of_mem_filter (hab.subset (by simp) : a ∈ l.filter fun a => key a = k)
    have hb := of_mem_filter (hab.subset (by simp) : b ∈ l.filter fun a => key a = k)
    simp only [decide_eq_true_eq] at ha hb
    simp [keyLe, ha, hb]
  have hsub := sublist_mergeSort (keyLe_trans key) (keyLe_total key) hsorted
    filter_sublist
  have hsub' := hsub.filter fun a => key a = k
  rw [filter_filter] at hsub'
  simp only [Bool.and_self] at hsub'
  have hlength := ((mergeSort_perm l (keyLe key)).filter fun a => key a = k).length_eq
  exact (hsub'.eq_of_length hlength.symm).symm

/-- A stable sort, key by key. -/
theorem mergeSort_key (hkey : ∀ a ∈ l, key a < n) :
    l.mergeSort (keyLe key) = (range n).flatMap fun k => l.filter fun a => key a = k := by
  have hsorted : (l.mergeSort (keyLe key)).Pairwise fun a b => keyLe key a b = true :=
    pairwise_mergeSort (keyLe_trans key) (keyLe_total key) l
  have hbound : ∀ a ∈ l.mergeSort (keyLe key), key a < n :=
    fun a ha => hkey a ((mergeSort_perm _ _).mem_iff.mp ha)
  rw [sorted_eq_flatMap key hsorted hbound]
  apply flatMap_congr
  intro k _
  exact filter_mergeSort key l k

/-! ## Positions -/

/-- `torch.argsort(keys, stable=True)`. -/
def argsort (keys : List Nat) : List Nat :=
  (keys.zipIdx.mergeSort (keyLe Prod.fst)).map Prod.snd

/-- The positions of a key. -/
def positions (keys : List Nat) (k : Nat) : List Nat :=
  (range keys.length).filter fun p => keys.getD p 0 = k

theorem positions_eq (keys : List Nat) (k : Nat) :
    positions keys k = (keys.zipIdx.filter fun entry => entry.1 = k).map Prod.snd := by
  have hzip : keys.zipIdx = (range keys.length).map fun p => (keys.getD p 0, p) := by
    apply ext_getElem?
    intro i
    by_cases hi : i < keys.length <;> simp [hi, getD_eq_getElem?_getD]
  rw [hzip, filter_map, map_map]
  exact (map_id' _).symm

variable {keys : List Nat}

/-- The positions in the order of their keys. -/
theorem argsort_eq (hkeys : ∀ k ∈ keys, k < n) :
    argsort keys = (range n).flatMap (positions keys) := by
  have hbound : ∀ entry ∈ keys.zipIdx, entry.1 < n :=
    fun entry hentry => hkeys _ (fst_mem_of_mem_zipIdx hentry)
  rw [argsort, mergeSort_key Prod.fst hbound, map_flatMap]
  apply flatMap_congr
  intro k _
  exact (positions_eq keys k).symm

theorem argsort_perm (keys : List Nat) : (argsort keys).Perm (range keys.length) := by
  have hrange : keys.zipIdx.map Prod.snd = range keys.length := by
    simp [range_eq_range']
  rw [← hrange]
  exact (mergeSort_perm _ _).map Prod.snd

theorem mem_positions {k p : Nat} : p ∈ positions keys k ↔ p < keys.length ∧ keys.getD p 0 = k := by
  simp [positions]

theorem length_positions (keys : List Nat) (k : Nat) : (positions keys k).length = keys.count k := by
  rw [positions_eq, length_map, ← countP_eq_length_filter, count]
  conv_rhs => rw [← zipIdx_map_fst 0 keys]
  rw [countP_map]
  congr 1

theorem argsort_of_perm (hperm : keys.Perm (range n)) :
    argsort keys = (range n).map keys.idxOf := by
  have hnodup : keys.Nodup := hperm.nodup_iff.mpr nodup_range
  have hone : ∀ k < n, positions keys k = [keys.idxOf k] := by
    intro k hk
    have hmem : k ∈ keys := hperm.mem_iff.mpr (mem_range.mpr hk)
    have hlt := idxOf_lt_length_of_mem hmem
    have hlength : (positions keys k).length = 1 := by
      rw [length_positions, count_eq_one_of_mem hnodup hmem]
    obtain ⟨p, hp⟩ := List.length_eq_one_iff.mp hlength
    have hpos : keys.idxOf k ∈ positions keys k := by
      rw [mem_positions, getD_eq_getElem?_getD, getElem?_eq_getElem hlt]
      exact ⟨hlt, getElem_idxOf hlt⟩
    rw [hp] at hpos ⊢
    rw [mem_singleton.mp hpos]
  rw [argsort_eq fun k hk => mem_range.mp (hperm.mem_iff.mp hk)]
  rw [flatMap_congr fun k hk => hone k (mem_range.mp hk), map_eq_flatMap]

end StableSort
