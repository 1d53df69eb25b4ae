import Mathlib.Data.Finset.Card
import Mathlib.Tactic

/-!
# Prefix counts of a finite family of strings

A family is a finite set of keys, each carrying a string.  The count of a string
`w` is the number of keys whose string has `w` as a prefix.  A string
is a branching point of the family when its count is positive and strictly above
the count of each of its one-token extensions; these are the nodes of the
path-compressed count trie of the family.

Main results:

- Theorem `Family.exists_isNode_of_pos`: every occurring string extends to a
  branching point of the same count.
- Theorem `Family.isNode_unique`: that branching point is unique.
- Theorem `Family.isNode_extend_iff`: appending one token to one string
  changes the branching points at two strings only.
- Theorem `Family.isNode_erase_iff`: dropping a key creates no branching
  point.
- Theorem `Family.card_isNode_le`: there are at most two branching points for
  each key.
-/

namespace StringFamily

open List

/-- A finite set of keys, each of which carries a string. -/
structure Family (ι α : Type*) where
  keys : Finset ι
  str : ι → List α

namespace Family

variable {ι α : Type*} [DecidableEq α] {F : Family ι α}

/-- Number of keys whose string has `w` as a prefix. -/
def cnt (F : Family ι α) (w : List α) : Nat :=
  (F.keys.filter (fun k => w <+: F.str k)).card

/-- A branching point: a string that occurs, and more often than each of its extensions. -/
def IsNode (F : Family ι α) (w : List α) : Prop :=
  0 < F.cnt w ∧ ∀ a, F.cnt (w ++ [a]) < F.cnt w

/-! ## Counts -/

variable {w : List α}

theorem cnt_pos_iff : 0 < F.cnt w ↔ ∃ k ∈ F.keys, w <+: F.str k := by
  rw [cnt, Finset.card_pos]
  constructor
  · rintro ⟨k, hk⟩
    exact ⟨k, (Finset.mem_filter.mp hk).1, (Finset.mem_filter.mp hk).2⟩
  · rintro ⟨k, hk, hw⟩
    exact ⟨k, Finset.mem_filter.mpr ⟨hk, hw⟩⟩

variable {k : ι}

theorem str_ne_of_cnt_eq_zero (h : F.cnt w = 0) (hk : k ∈ F.keys) : F.str k ≠ w := by
  rintro rfl
  have := cnt_pos_iff.mpr ⟨k, hk, prefix_refl (F.str k)⟩
  omega

variable {u v : List α}

theorem cnt_anti (h : u <+: v) : F.cnt v ≤ F.cnt u := by
  apply Finset.card_le_card
  intro k hk
  rw [Finset.mem_filter] at hk ⊢
  exact ⟨hk.1, h.trans hk.2⟩

theorem cnt_nil : F.cnt [] = F.keys.card := by
  simp [cnt]

/-- Equal counts along an extension force every string through `u` to pass through `v`. -/
theorem prefix_of_cnt_eq (h : u <+: v) (hcnt : F.cnt u ≤ F.cnt v) (hk : k ∈ F.keys)
    (hu : u <+: F.str k) : v <+: F.str k := by
  have hsub : F.keys.filter (fun k => v <+: F.str k) ⊆
      F.keys.filter (fun k => u <+: F.str k) := by
    intro j hj
    rw [Finset.mem_filter] at hj ⊢
    exact ⟨hj.1, h.trans hj.2⟩
  have heq := Finset.eq_of_subset_of_card_le hsub hcnt
  have hmem : k ∈ F.keys.filter (fun k => v <+: F.str k) := by
    rw [heq, Finset.mem_filter]
    exact ⟨hk, hu⟩
  exact (Finset.mem_filter.mp hmem).2

theorem cnt_eq_zero_of_branch {a : α} (h : u <+: v) (hcnt : F.cnt u ≤ F.cnt v)
    (hlen : u.length < v.length) (ha : ¬ u ++ [a] <+: v) : F.cnt (u ++ [a]) = 0 := by
  by_contra hne
  obtain ⟨k, hk, hua⟩ := cnt_pos_iff.mp (pos_of_ne_zero hne)
  have hv : v <+: F.str k := prefix_of_cnt_eq h hcnt hk ((prefix_append u [a]).trans hua)
  refine ha (prefix_of_prefix_length_le hua hv ?_)
  simpa using hlen

theorem cnt_add_cnt_le {a b : α} (hab : a ≠ b) : F.cnt (w ++ [a]) + F.cnt (w ++ [b]) ≤ F.cnt w := by
  classical
  rw [cnt, cnt, cnt, ← Finset.card_union_of_disjoint]
  · apply Finset.card_le_card
    intro k hk
    rw [Finset.mem_union, Finset.mem_filter, Finset.mem_filter] at hk
    rw [Finset.mem_filter]
    rcases hk with ⟨hk, hw⟩ | ⟨hk, hw⟩
    · exact ⟨hk, (prefix_append w [a]).trans hw⟩
    · exact ⟨hk, (prefix_append w [b]).trans hw⟩
  · rw [Finset.disjoint_left]
    intro k hka hkb
    have ha := (Finset.mem_filter.mp hka).2
    have hb := (Finset.mem_filter.mp hkb).2
    have heq : w ++ [a] = w ++ [b] :=
      (prefix_of_prefix_length_le ha hb (by simp)).eq_of_length (by simp)
    exact hab (by simpa using heq)

/-! ## Branching points -/

theorem isNode_str (hk : k ∈ F.keys) : F.IsNode (F.str k) := by
  refine ⟨cnt_pos_iff.mpr ⟨k, hk, prefix_refl _⟩, fun a => ?_⟩
  apply Finset.card_lt_card
  rw [Finset.ssubset_iff_of_subset]
  · refine ⟨k, Finset.mem_filter.mpr ⟨hk, prefix_refl _⟩, ?_⟩
    intro hmem
    have hle := (Finset.mem_filter.mp hmem).2.length_le
    simp at hle
  · intro j hj
    rw [Finset.mem_filter] at hj ⊢
    exact ⟨hj.1, (prefix_append _ _).trans hj.2⟩

theorem exists_cnt_eq_of_not_isNode (hpos : 0 < F.cnt w) (h : ¬ F.IsNode w) :
    ∃ a, F.cnt (w ++ [a]) = F.cnt w := by
  unfold IsNode at h
  push Not at h
  obtain ⟨a, ha⟩ := h hpos
  exact ⟨a, le_antisymm (cnt_anti (prefix_append w [a])) ha⟩

/-- Every occurring string extends to a branching point of the same count. -/
theorem exists_isNode_of_pos {u : List α} (hpos : 0 < F.cnt u) :
    ∃ v, u <+: v ∧ F.IsNode v ∧ F.cnt v = F.cnt u := by
  obtain ⟨k, hk, hu⟩ := cnt_pos_iff.mp hpos
  -- The continuation stays a prefix of the string at `k`, which bounds the search.
  induction hn : (F.str k).length - u.length generalizing u with
  | zero =>
    have heq : u = F.str k := hu.eq_of_length (by have := hu.length_le; omega)
    exact ⟨u, prefix_refl u, heq ▸ isNode_str hk, rfl⟩
  | succ n ih =>
    by_cases hnode : F.IsNode u
    · exact ⟨u, prefix_refl u, hnode, rfl⟩
    · obtain ⟨a, ha⟩ := exists_cnt_eq_of_not_isNode hpos hnode
      have hua : u ++ [a] <+: F.str k := prefix_of_cnt_eq (prefix_append u [a]) ha.ge hk hu
      have hmeasure : (F.str k).length - (u ++ [a]).length = n := by
        simp only [length_append, length_cons, length_nil]
        omega
      obtain ⟨v, hv, hvnode, hvcnt⟩ := ih (by omega) hua hmeasure
      exact ⟨v, (prefix_append u [a]).trans hv, hvnode, hvcnt.trans ha⟩

theorem IsNode.eq_of_cnt_le {v v' : List α} (hv : F.IsNode v) (h : v <+: v')
    (hcnt : F.cnt v' = F.cnt v) : v = v' := by
  obtain ⟨t, rfl⟩ := h
  cases t with
  | nil => simp
  | cons a t =>
    have hle : F.cnt (v ++ a :: t) ≤ F.cnt (v ++ [a]) := cnt_anti ⟨t, by simp⟩
    have hlt := hv.2 a
    omega

/-- The branching point that continues an occurring string with equal count is unique. -/
theorem isNode_unique {u v v' : List α} (hpos : 0 < F.cnt u) (hu : u <+: v) (hu' : u <+: v')
    (hv : F.IsNode v) (hv' : F.IsNode v') (hcnt : F.cnt v = F.cnt u)
    (hcnt' : F.cnt v' = F.cnt u) : v = v' := by
  obtain ⟨k, hk, huk⟩ := cnt_pos_iff.mp hpos
  have hvk := prefix_of_cnt_eq hu hcnt.ge hk huk
  have hvk' := prefix_of_cnt_eq hu' hcnt'.ge hk huk
  rcases prefix_or_prefix_of_prefix hvk hvk' with h | h
  · exact hv.eq_of_cnt_le h (by omega)
  · exact (hv'.eq_of_cnt_le h (by omega)).symm

/-! ## Updates of a family -/

section Updates

variable [DecidableEq ι]

/-- Append the token `a` to the string of the key `k`. -/
def extend (F : Family ι α) (k : ι) (a : α) : Family ι α where
  keys := F.keys
  str := Function.update F.str k (F.str k ++ [a])

/-- Add the key `k` with the empty string. -/
def open_ (F : Family ι α) (k : ι) : Family ι α where
  keys := insert k F.keys
  str := Function.update F.str k []

/-- Drop the key `k`. -/
def erase (F : Family ι α) (k : ι) : Family ι α where
  keys := F.keys.erase k
  str := F.str

variable {k : ι}

/-- Appending a token to one string raises the count of the new string alone. -/
theorem cnt_extend (hk : k ∈ F.keys) (a : α) (w : List α) :
    (F.extend k a).cnt w = F.cnt w + if w = F.str k ++ [a] then 1 else 0 := by
  by_cases hw : w = F.str k ++ [a]
  · have hnot : k ∉ F.keys.filter (fun j => w <+: F.str j) := by
      rw [Finset.mem_filter]
      rintro ⟨-, hpre⟩
      have hle := hpre.length_le
      simp [hw] at hle
    have hset : F.keys.filter (fun j => w <+: (F.extend k a).str j) =
        insert k (F.keys.filter (fun j => w <+: F.str j)) := by
      ext j
      rw [Finset.mem_insert, Finset.mem_filter, Finset.mem_filter]
      by_cases hj : j = k
      · subst hj
        simp [extend, hk, hw]
      · simp [extend, hj]
    rw [if_pos hw]
    calc (F.extend k a).cnt w
        = (insert k (F.keys.filter (fun j => w <+: F.str j))).card := by rw [← hset]; rfl
      _ = F.cnt w + 1 := Finset.card_insert_of_notMem hnot
  · rw [if_neg hw, add_zero]
    unfold cnt
    congr 1
    apply Finset.filter_congr
    intro j _
    by_cases hj : j = k
    · subst hj
      simp only [extend, Function.update_self, prefix_concat_iff]
      exact ⟨fun h => h.resolve_left hw, Or.inr⟩
    · simp [extend, hj]

/-- Adding a key with the empty string raises the count of the empty string alone. -/
theorem cnt_open (hk : k ∉ F.keys) (w : List α) :
    (F.open_ k).cnt w = F.cnt w + if w = [] then 1 else 0 := by
  have hrest : F.keys.filter (fun j => w <+: (F.open_ k).str j) =
      F.keys.filter (fun j => w <+: F.str j) := by
    apply Finset.filter_congr
    intro j hj
    have hne : j ≠ k := fun h => hk (h ▸ hj)
    simp [open_, hne]
  have hnot : k ∉ F.keys.filter (fun j => w <+: (F.open_ k).str j) := by
    simp [hk]
  by_cases hw : w = []
  · have hset : (F.open_ k).keys.filter (fun j => w <+: (F.open_ k).str j) =
        insert k (F.keys.filter (fun j => w <+: (F.open_ k).str j)) := by
      ext j
      simp [open_, hw]
    rw [if_pos hw]
    calc (F.open_ k).cnt w
        = (insert k (F.keys.filter (fun j => w <+: (F.open_ k).str j))).card := by
          rw [← hset]; rfl
      _ = F.cnt w + 1 := by rw [Finset.card_insert_of_notMem hnot, hrest]; rfl
  · rw [if_neg hw, add_zero]
    have hset : (F.open_ k).keys.filter (fun j => w <+: (F.open_ k).str j) =
        F.keys.filter (fun j => w <+: (F.open_ k).str j) := by
      ext j
      rw [Finset.mem_filter, Finset.mem_filter]
      by_cases hj : j = k
      · simp [open_, hj, hw]
      · simp [open_, hj]
    calc (F.open_ k).cnt w
        = (F.keys.filter (fun j => w <+: (F.open_ k).str j)).card := by rw [← hset]; rfl
      _ = F.cnt w := by rw [hrest]; rfl

theorem cnt_erase (hk : k ∈ F.keys) (w : List α) :
    (F.erase k).cnt w + (if w <+: F.str k then 1 else 0) = F.cnt w := by
  have hset : (F.erase k).keys.filter (fun j => w <+: (F.erase k).str j) =
      (F.keys.filter (fun j => w <+: F.str j)).erase k := by
    ext j
    rw [Finset.mem_filter, Finset.mem_erase, Finset.mem_filter]
    simp only [erase, Finset.mem_erase]
    tauto
  have hcnt : (F.erase k).cnt w = ((F.keys.filter (fun j => w <+: F.str j)).erase k).card := by
    rw [← hset]; rfl
  by_cases hw : w <+: F.str k
  · have hmem : k ∈ F.keys.filter (fun j => w <+: F.str j) := by simp [hk, hw]
    rw [hcnt, if_pos hw, Finset.card_erase_add_one hmem]
    rfl
  · have hnot : k ∉ F.keys.filter (fun j => w <+: F.str j) := by simp [hw]
    rw [hcnt, if_neg hw, Finset.erase_eq_of_notMem hnot]
    rfl

/-- When all occurrences of the string of `k` but one continue along `a`, the one is that of
`k`. -/
theorem prefix_of_cnt_eq_succ {k j : ι} {a : α} (hk : k ∈ F.keys)
    (hcnt : F.cnt (F.str k) = F.cnt (F.str k ++ [a]) + 1) (hj : j ∈ F.keys) (hjk : j ≠ k)
    (hpre : F.str k <+: F.str j) : F.str k ++ [a] <+: F.str j := by
  have h1 := cnt_erase hk (F.str k)
  have h2 := cnt_erase hk (F.str k ++ [a])
  have hnot : ¬ F.str k ++ [a] <+: F.str k := by
    intro h
    have := h.length_le
    simp at this
  rw [if_pos (prefix_refl _)] at h1
  rw [if_neg hnot] at h2
  have hmem : j ∈ (F.erase k).keys := Finset.mem_erase.mpr ⟨hjk, hj⟩
  exact prefix_of_cnt_eq (F := F.erase k) (prefix_append _ [a]) (by omega) hmem hpre

/-- Branching points after appending a token: the extended string becomes one, and the old
string stops being one exactly when its other occurrences all continue the same way. -/
theorem isNode_extend_iff (hk : k ∈ F.keys) (a : α) (w : List α) :
    (F.extend k a).IsNode w ↔ w = F.str k ++ [a] ∨
        (F.IsNode w ∧ ¬ (w = F.str k ∧ F.cnt (F.str k) = F.cnt (F.str k ++ [a]) + 1)) := by
  by_cases hnew : w = F.str k ++ [a]
  · refine iff_of_true ⟨?_, fun b => ?_⟩ (.inl hnew)
    · rw [cnt_extend hk, if_pos hnew]
      omega
    · have hne : w ++ [b] ≠ F.str k ++ [a] := by
        intro h
        have := congrArg List.length h
        simp [hnew] at this
      rw [cnt_extend hk, cnt_extend hk, if_pos hnew, if_neg hne]
      have := F.cnt_anti (prefix_append w [b])
      omega
  · have hw : (F.extend k a).cnt w = F.cnt w := by
      rw [cnt_extend hk, if_neg hnew, add_zero]
    by_cases hold : w = F.str k
    · subst hold
      have hnode := isNode_str hk
      constructor
      · intro h
        refine .inr ⟨hnode, fun hcnt => ?_⟩
        have hlt := h.2 a
        rw [hw, cnt_extend hk, if_pos rfl] at hlt
        omega
      · rintro (h | ⟨-, hcnt⟩)
        · exact absurd h hnew
        · refine ⟨by rw [hw]; exact hnode.1, fun b => ?_⟩
          rw [hw, cnt_extend hk]
          have hlt := hnode.2 b
          by_cases hb : b = a
          · subst hb
            rw [if_pos rfl]
            have : F.cnt (F.str k) ≠ F.cnt (F.str k ++ [b]) + 1 := fun h => hcnt ⟨rfl, h⟩
            omega
          · rw [if_neg (by simpa using hb)]
            omega
    · have hext : ∀ b, (F.extend k a).cnt (w ++ [b]) = F.cnt (w ++ [b]) := by
        intro b
        rw [cnt_extend hk, if_neg, add_zero]
        intro h
        exact hold (append_inj_left' h rfl)
      unfold IsNode
      simp only [hw, hext]
      constructor
      · intro h
        exact .inr ⟨h, fun hc => hold hc.1⟩
      · rintro (h | ⟨h, -⟩)
        · exact absurd h hnew
        · exact h

theorem isNode_open_iff (hk : k ∉ F.keys) {w : List α} (hw : w ≠ []) :
    (F.open_ k).IsNode w ↔ F.IsNode w := by
  have hext : ∀ b, (F.open_ k).cnt (w ++ [b]) = F.cnt (w ++ [b]) := by
    intro b
    rw [cnt_open hk, if_neg (by simp), add_zero]
  have hcnt : (F.open_ k).cnt w = F.cnt w := by
    rw [cnt_open hk, if_neg hw, add_zero]
  unfold IsNode
  simp only [hcnt, hext]

/-- Dropping a key creates no branching point, and removes a branching point exactly when
it stops occurring or all its remaining occurrences continue the same way. -/
theorem isNode_erase_iff (hk : k ∈ F.keys) (w : List α) :
    (F.erase k).IsNode w ↔ F.IsNode w ∧ 0 < (F.erase k).cnt w ∧
        ¬ ∃ b, (F.erase k).cnt (w ++ [b]) = (F.erase k).cnt w := by
  constructor
  · intro h
    refine ⟨⟨?_, fun b => ?_⟩, h.1, ?_⟩
    · have := cnt_erase hk w
      have := h.1
      omega
    · have hlt := h.2 b
      have h1 := cnt_erase hk w
      have h2 := cnt_erase hk (w ++ [b])
      by_cases hb : w ++ [b] <+: F.str k
      · rw [if_pos hb] at h2
        rw [if_pos ((prefix_append w [b]).trans hb)] at h1
        omega
      · rw [if_neg hb] at h2
        split_ifs at h1 <;> omega
    · rintro ⟨b, hb⟩
      have := h.2 b
      omega
  · rintro ⟨-, hpos, hne⟩
    refine ⟨hpos, fun b => ?_⟩
    refine lt_of_le_of_ne (cnt_anti (prefix_append w [b])) ?_
    exact fun h => hne ⟨b, h⟩

theorem IsNode.erase_of_not_prefix (hk : k ∈ F.keys) {w : List α} (h : F.IsNode w)
    (hw : ¬ w <+: F.str k) : (F.erase k).IsNode w := by
  have hcnt := cnt_erase hk w
  rw [if_neg hw, add_zero] at hcnt
  refine ⟨hcnt ▸ h.1, fun b => ?_⟩
  have hb := cnt_erase hk (w ++ [b])
  rw [if_neg fun hc => hw ((prefix_append w [b]).trans hc), add_zero] at hb
  rw [hcnt, hb]
  exact h.2 b

/-- A branching point strictly above a prefix of the dropped string that still occurs stays
one. -/
theorem IsNode.erase_of_prefix (hk : k ∈ F.keys) {w y : List α} (h : F.IsNode w) (hwy : w <+: y)
    (hne : w ≠ y) (hy : y <+: F.str k) (hpos : 0 < (F.erase k).cnt y) : (F.erase k).IsNode w := by
  obtain ⟨t, rfl⟩ := hwy
  cases t with
  | nil => simp at hne
  | cons d t =>
    have hwd : w ++ [d] <+: w ++ d :: t := ⟨t, by simp⟩
    have hw := cnt_erase hk w
    have hd := cnt_erase hk (w ++ [d])
    rw [if_pos ((prefix_append _ _).trans hy)] at hw
    rw [if_pos (hwd.trans hy)] at hd
    have hdpos : 0 < (F.erase k).cnt (w ++ [d]) := lt_of_lt_of_le hpos (cnt_anti hwd)
    have hdlt := h.2 d
    refine ⟨by omega, fun b => ?_⟩
    by_cases hb : b = d
    · subst hb
      omega
    · have hadd := F.cnt_add_cnt_le (w := w) hb
      have hbe := cnt_erase hk (w ++ [b])
      split_ifs at hbe <;> omega

/-! ## The number of branching points -/

/-- A proper prefix that branches stays one without `k`, the last such prefix apart. -/
theorem IsNode.eq_of_not_erase (hk : k ∈ F.keys) {w w' : List α} (h : F.IsNode w)
    (hw : ¬ (F.erase k).IsNode w) (h' : F.IsNode w') (hw' : ¬ (F.erase k).IsNode w')
    (hne : w ≠ F.str k) (hne' : w' ≠ F.str k) : w = w' := by
  have hpre : ∀ {u}, F.IsNode u → ¬ (F.erase k).IsNode u → u ≠ F.str k →
      u <+: F.str k ∧ 0 < (F.erase k).cnt u := by
    intro u hu hnot hune
    have huk : u <+: F.str k := by
      by_contra hno
      exact hnot (hu.erase_of_not_prefix hk hno)
    obtain ⟨t, ht⟩ := huk
    obtain ⟨b, t, rfl⟩ := exists_cons_of_ne_nil fun hnil : t = [] => hune (by simpa [hnil] using ht)
    have hb : u ++ [b] <+: F.str k := ⟨t, by rw [← ht]; simp⟩
    have huk := (prefix_append u [b]).trans hb
    have hlt := hu.2 b
    have hpos := cnt_pos_iff.mpr ⟨k, hk, hb⟩
    have hcnt := cnt_erase hk u
    rw [if_pos huk] at hcnt
    exact ⟨huk, by omega⟩
  obtain ⟨hwk, hpos⟩ := hpre h hw hne
  obtain ⟨hwk', hpos'⟩ := hpre h' hw' hne'
  by_contra hww
  rcases prefix_or_prefix_of_prefix hwk hwk' with hle | hle
  · exact hw (h.erase_of_prefix hk hle hww hwk' hpos')
  · exact hw' (h'.erase_of_prefix hk hle (Ne.symm hww) hwk hpos)

/-- A family of `n` strings has at most `2 * n` branching points. -/
theorem card_isNode_le (F : Family ι α) (S : Finset (List α))
    (hS : ∀ w ∈ S, F.IsNode w) : S.card ≤ 2 * F.keys.card := by
  classical
  induction hn : F.keys.card generalizing F S with
  | zero =>
    rw [Finset.card_eq_zero] at hn
    rw [Finset.card_eq_zero.mpr (Finset.eq_empty_of_forall_notMem fun w hw => ?_)]
    have hpos := (hS w hw).1
    simp [cnt, hn] at hpos
  | succ n ih =>
    obtain ⟨k, hk⟩ := Finset.card_pos.mp (by omega : 0 < F.keys.card)
    have hrest := ih (F.erase k) (S.filter (F.erase k).IsNode)
      (fun w hw => (Finset.mem_filter.mp hw).2) (by simp [erase, Finset.card_erase_of_mem hk, hn])
    -- what is lost is the string of `k` and one branching point above it
    have hlost : (S.filter fun w => ¬ (F.erase k).IsNode w).card ≤ 2 := by
      have hone : ((S.filter fun w => ¬ (F.erase k).IsNode w).erase (F.str k)).card ≤ 1 := by
        refine Finset.card_le_one.mpr fun w hw w' hw' => ?_
        simp only [Finset.mem_erase, Finset.mem_filter] at hw hw'
        exact (hS w hw.2.1).eq_of_not_erase hk hw.2.2 (hS w' hw'.2.1) hw'.2.2 hw.1 hw'.1
      have := Finset.pred_card_le_card_erase (a := F.str k) (s := S.filter fun w => ¬ (F.erase k).IsNode w)
      omega
    have hsplit := Finset.card_filter_add_card_filter_not (s := S) (F.erase k).IsNode
    omega

end Updates

end Family

end StringFamily
