import Mathlib.Data.List.TakeWhile
import Mathlib.Algebra.BigOperators.Group.List.Basic

/-!
# Bins of indices

Rows are spread over bins, each a list of indices.  This module has what an
extension of one bin does to all of them together, and the bisection functions
that keep a list of loads sorted.

Main results:

- Theorem `flatten_modify_perm`: extending one bin adds its new elements to the whole.
- Theorem `insort_perm`, `Sorted.insort`: an insertion adds one entry and keeps the order.
- Theorem `argmin_spec`: the position of a least entry.
-/

namespace Bins

open List

/-- Extending one bin adds its new elements to the whole. -/
theorem flatten_modify_perm {bins : List (List Nat)} {rank : Nat} (hrank : rank < bins.length)
    (xs : List Nat) : (bins.modify rank (· ++ xs)).flatten.Perm (bins.flatten ++ xs) := by
  induction bins generalizing rank with
  | nil => exact absurd hrank (Nat.not_lt_zero _)
  | cons bin bins ih =>
    cases rank with
    | zero =>
      rw [modify_zero_cons, flatten_cons, flatten_cons, append_assoc, append_assoc]
      exact List.Perm.append_left bin perm_append_comm
    | succ rank =>
      rw [modify_succ_cons, flatten_cons, flatten_cons, append_assoc]
      apply List.Perm.append_left
      apply ih
      simpa using hrank

/-- The order of Python's pairs. -/
def pairLe (a b : Nat × Nat) : Bool :=
  a.1 < b.1 || (a.1 = b.1 && a.2 ≤ b.2)

/-- `bisect.bisect_right` on a sorted list. -/
def bisectRight (l : List (Nat × Nat)) (x : Nat × Nat) : Nat :=
  (l.takeWhile (pairLe · x)).length

/-- `bisect.insort` on a sorted list. -/
def insort (l : List (Nat × Nat)) (x : Nat × Nat) : List (Nat × Nat) :=
  l.insertIdx (bisectRight l x) x

/-- `np.argmin`: the first position of the least entry; an empty list is an error. -/
def argmin (l : List Nat) : Option Nat :=
  l.min?.bind (l.idxOf? ·)

theorem pairLe_iff {a b : Nat × Nat} : pairLe a b = true ↔ a.1 < b.1 ∨ a.1 = b.1 ∧ a.2 ≤ b.2 := by
  simp [pairLe]

theorem pairLe_antisymm {a b : Nat × Nat} (h : pairLe a b = true) (h' : pairLe b a = true) :
    a = b := by
  rw [pairLe_iff] at h h'
  ext <;> omega

theorem bisectRight_le (l : List (Nat × Nat)) (x : Nat × Nat) : bisectRight l x ≤ l.length :=
  (List.takeWhile_prefix _).length_le

theorem bisectRight_cons_pos {a : Nat × Nat} {l : List (Nat × Nat)} {x : Nat × Nat}
    (h : pairLe a x = true) : 0 < bisectRight (a :: l) x := by
  simp [bisectRight, h]

theorem pairLe_of_lt_bisectRight {l : List (Nat × Nat)} {x entry : Nat × Nat} {j : Nat}
    (hj : j < bisectRight l x) (hentry : l[j]? = some entry) : pairLe entry x = true := by
  have hprefix := takeWhile_prefix (l := l) (pairLe · x)
  have hget : (l.takeWhile (pairLe · x))[j]? = some entry := by
    rw [prefix_iff_eq_take.mp hprefix, getElem?_take, ← hentry]
    exact if_pos hj
  exact mem_takeWhile_imp (p := (pairLe · x)) (mem_of_getElem? hget)

/-- An insertion adds one entry. -/
theorem insort_perm (l : List (Nat × Nat)) (x : Nat × Nat) : (insort l x).Perm (x :: l) :=
  perm_insertIdx x l (bisectRight_le l x)

/-- A list of pairs in Python's order. -/
def Sorted (l : List (Nat × Nat)) : Prop := l.Pairwise fun a b => pairLe a b = true

theorem Sorted.insort {l : List (Nat × Nat)} (h : Sorted l) (x : Nat × Nat) :
    Sorted (insort l x) := by
  induction l with
  | nil => exact pairwise_singleton _ _
  | cons a l ih =>
    have hrest := pairwise_cons.mp h
    by_cases hle : pairLe a x = true
    · have hcons : Bins.insort (a :: l) x = a :: Bins.insort l x := by
        simp [Bins.insort, bisectRight, hle]
      rw [hcons]
      refine pairwise_cons.mpr ⟨fun b hb => ?_, ih hrest.2⟩
      rcases mem_cons.mp ((insort_perm l x).mem_iff.mp hb) with rfl | hb
      · exact hle
      · exact hrest.1 b hb
    · have hcons : Bins.insort (a :: l) x = x :: a :: l := by
        simp [Bins.insort, bisectRight, hle]
      rw [hcons]
      refine pairwise_cons.mpr ⟨fun b hb => ?_, h⟩
      rw [pairLe_iff] at hle ⊢
      rcases mem_cons.mp hb with rfl | hb
      · omega
      · have hab := pairLe_iff.mp (hrest.1 b hb)
        omega

theorem Sorted.eraseIdx {l : List (Nat × Nat)} (h : Sorted l) (j : Nat) : Sorted (l.eraseIdx j) :=
  h.sublist (eraseIdx_sublist l j)

theorem Sorted.load_le {l : List (Nat × Nat)} (h : Sorted l) {j k : Nat} {a b : Nat × Nat}
    (hjk : j ≤ k) (ha : l[j]? = some a) (hb : l[k]? = some b) : a.1 ≤ b.1 := by
  obtain ⟨hj, rfl⟩ := List.getElem?_eq_some_iff.mp ha
  obtain ⟨hk, rfl⟩ := List.getElem?_eq_some_iff.mp hb
  rcases Nat.eq_or_lt_of_le hjk with rfl | hlt
  · exact Nat.le_refl _
  · have hle := pairLe_iff.mp (pairwise_iff_getElem.mp h j k hj hk hlt)
    omega

/-- Everything up to an entry of a sorted list is before its bisection. -/
theorem Sorted.mem_take_bisectRight {l : List (Nat × Nat)} (h : Sorted l) {x entry : Nat × Nat}
    (hentry : entry ∈ l) (hle : pairLe entry x = true) : entry ∈ l.take (bisectRight l x) := by
  rw [bisectRight, ← prefix_iff_eq_take.mp (List.takeWhile_prefix (pairLe · x))]
  induction l with
  | nil => cases hentry
  | cons a l ih =>
    have hrest := pairwise_cons.mp h
    have ha : pairLe a x = true := by
      rcases mem_cons.mp hentry with rfl | hmem
      · exact hle
      · have hab := pairLe_iff.mp (hrest.1 entry hmem)
        rw [pairLe_iff] at hle ⊢
        omega
    rw [takeWhile_cons_of_pos (p := (pairLe · x)) ha]
    rcases mem_cons.mp hentry with rfl | hmem
    · exact mem_cons_self
    · exact mem_cons_of_mem _ (ih hrest.2 hmem)

/-- The position of `np.argmin` has a least entry, and those before it are larger. -/
theorem argmin_spec {l : List Nat} {j : Nat} (h : argmin l = some j) :
    ∃ m, l[j]? = some m ∧ ∀ (k x : Nat), l[k]? = some x → m < x ∨ m = x ∧ j ≤ k := by
  obtain ⟨m, hmin, hidx⟩ := Option.bind_eq_some_iff.mp h
  obtain ⟨hj, hget, hfirst⟩ := idxOf?_eq_some_iff.mp hidx
  refine ⟨m, by rw [getElem?_eq_getElem hj, hget], fun k x hk => ?_⟩
  obtain ⟨hlt, hx⟩ := List.getElem?_eq_some_iff.mp hk
  have hle := (min?_eq_some_iff.mp hmin).2 x (mem_of_getElem? hk)
  by_cases heq : m = x
  · refine .inr ⟨heq, Nat.le_of_not_lt fun hkj => hfirst k hkj ?_⟩
    rw [hx, heq]
  · exact .inl (Nat.lt_of_le_of_ne hle heq)

theorem argmin_isSome {l : List Nat} (h : l ≠ []) : ∃ j < l.length, argmin l = some j := by
  cases hmin : l.min? with
  | none => exact absurd (min?_eq_none_iff.mp hmin) h
  | some m =>
    have hmem : m ∈ l := min?_mem hmin
    obtain ⟨j, hj⟩ : ∃ j, l.idxOf? m = some j :=
      Option.isSome_iff_exists.mp (isSome_idxOf?.mpr hmem)
    obtain ⟨hlt, -, -⟩ := idxOf?_eq_some_iff.mp hj
    exact ⟨j, hlt, by rw [argmin, hmin, Option.bind_some, hj]⟩

end Bins
