import Mathlib

/-!
# Dyadic blocks

A block of level `k + 1` is one half of a block of level `k`.  The block of
level one and index zero is the unit interval.  A tiling of a block is what repeated
splitting makes of it.

Main results:

- Theorem `Tiles.refine`, `Tiles.coarsen`: splitting one block of a tiling, and
  merging two halves, gives a tiling.
- Theorem `Tiles.pairwise_disjoint`, `Tiles.sum_share`: the blocks of a tiling are
  disjoint, and their shares add up to the share of the whole.
- Theorem `Tiles.eq_whole`: a tiling without two halves of one block is the whole.
-/

namespace DyadicBlocks

/-- A block. -/
structure Block where
  level : Nat
  index : Nat
  deriving DecidableEq

namespace Block

/-- The first half. -/
def left (b : Block) : Block := ⟨b.level + 1, 2 * b.index⟩

/-- The second half. -/
def right (b : Block) : Block := ⟨b.level + 1, 2 * b.index + 1⟩

/-- The share of the unit that a block of a level has. -/
def share (level : Nat) : ℚ := 2 / 2 ^ level

/-- The interval of a block. -/
def interval (b : Block) : Set ℚ := Set.Ico (b.index * share b.level) ((b.index + 1) * share b.level)

theorem share_one : share 1 = 1 := by norm_num [share]

theorem share_pos (level : Nat) : 0 < share level := by
  unfold share
  positivity

theorem share_succ (level : Nat) : share (level + 1) = share level / 2 := by
  unfold share
  rw [pow_succ]
  field_simp

theorem right_injective {a b : Block} (h : a.right = b.right) : a = b := by
  obtain ⟨level, index⟩ := a
  obtain ⟨level', index'⟩ := b
  simp only [right, Block.mk.injEq] at h
  simp only [Block.mk.injEq]
  omega

variable (b : Block)

theorem interval_left_subset : b.left.interval ⊆ b.interval := by
  intro x hx
  have hs := share_pos b.level
  simp only [interval, left, Set.mem_Ico, share_succ] at hx ⊢
  push_cast at hx
  constructor <;> nlinarith [hx.1, hx.2]

theorem interval_right_subset : b.right.interval ⊆ b.interval := by
  intro x hx
  have hs := share_pos b.level
  simp only [interval, right, Set.mem_Ico, share_succ] at hx ⊢
  push_cast at hx
  constructor <;> nlinarith [hx.1, hx.2]

theorem disjoint_halves : Disjoint b.left.interval b.right.interval := by
  rw [Set.disjoint_left]
  intro x hleft hright
  simp only [interval, left, right, Set.mem_Ico, share_succ] at hleft hright
  push_cast at hleft hright
  linarith [hleft.2, hright.1]

/-- A block lies inside another one. -/
def Inside (x b : Block) : Prop := b.level ≤ x.level ∧ x.index / 2 ^ (x.level - b.level) = b.index

theorem inside_self : b.Inside b := ⟨le_rfl, by simp⟩

theorem inside_of_half {x b : Block} (h : x.Inside b.left ∨ x.Inside b.right) :
    x.Inside b ∧ b.level < x.level := by
  have hdiv : ∀ {k : Nat}, b.level + 1 ≤ x.level →
      x.index / 2 ^ (x.level - (b.level + 1)) = k → x.index / 2 ^ (x.level - b.level) = k / 2 := by
    intro k hlevel hk
    rw [show x.level - b.level = (x.level - (b.level + 1)) + 1 by omega, pow_succ, ← Nat.div_div_eq_div_mul,
      hk]
  rcases h with ⟨hlevel, hindex⟩ | ⟨hlevel, hindex⟩
  · refine ⟨⟨Nat.le_of_succ_le hlevel, ?_⟩, hlevel⟩
    rw [hdiv hlevel hindex]
    dsimp only [left]
    omega
  · refine ⟨⟨Nat.le_of_succ_le hlevel, ?_⟩, hlevel⟩
    rw [hdiv hlevel hindex]
    dsimp only [right]
    omega

theorem not_inside_both {x b : Block} (hleft : x.Inside b.left) (hright : x.Inside b.right) : False := by
  have h := hleft.2.symm.trans hright.2
  dsimp only [left, right] at h
  omega

/-- The halves of a block lie in the same half of a block around it. -/
theorem inside_halves {m b : Block} (hne : m ≠ b) (h : m.left.Inside b.left ∨ m.right.Inside b.left) :
    m.left.Inside b.left ∧ m.right.Inside b.left := by
  have hlevel : b.level < m.level ∨ m.level = b.level := by
    rcases h with h | h
    · have := h.1
      dsimp only [left] at this
      omega
    · have := h.1
      dsimp only [left, right] at this
      omega
  have heven : ∀ k : Nat, 0 < k → (2 * m.index + 1) / 2 ^ k = 2 * m.index / 2 ^ k := by
    intro k hk
    rw [show 2 ^ k = 2 * 2 ^ (k - 1) by rw [← pow_succ']; congr 1; omega, ← Nat.div_div_eq_div_mul,
      ← Nat.div_div_eq_div_mul]
    congr 1
    omega
  rcases hlevel with hlt | heq
  · have hk : 0 < m.level + 1 - (b.level + 1) := by omega
    have hsame := heven _ hk
    constructor
    · refine ⟨by dsimp only [left]; omega, ?_⟩
      rcases h with h | h
      · exact h.2
      · have := h.2
        dsimp only [left, right] at this ⊢
        omega
    · refine ⟨by dsimp only [left, right]; omega, ?_⟩
      rcases h with h | h
      · have := h.2
        dsimp only [left, right] at this ⊢
        omega
      · exact h.2
  · exfalso
    apply hne
    obtain ⟨level, index⟩ := m
    obtain ⟨level', index'⟩ := b
    dsimp only at heq
    subst heq
    rcases h with h | h
    · have := h.2
      simp only [left, Nat.sub_self, pow_zero, Nat.div_one] at this
      rw [Block.mk.injEq]
      omega
    · have := h.2
      simp only [left, right, Nat.sub_self, pow_zero, Nat.div_one] at this
      omega

end Block

open Block
open List hiding Disjoint

/-- The blocks that repeated splitting makes of a block, in any order. -/
inductive Tiles : Block → List Block → Prop
  | whole (b : Block) : Tiles b [b]
  | split {b : Block} {l l₁ l₂ : List Block} (hleft : Tiles b.left l₁) (hright : Tiles b.right l₂)
      (hperm : l.Perm (l₁ ++ l₂)) : Tiles b l

namespace Tiles

variable {b m : Block} {l l' : List Block}

section

variable (h : Tiles b l)
include h

theorem perm (hperm : l'.Perm l) : Tiles b l' := by
  cases h with
  | whole =>
    rw [perm_singleton.mp hperm]
    exact .whole b
  | split hleft hright h => exact .split hleft hright (hperm.trans h)

theorem inside : ∀ x ∈ l, x.Inside b := by
  induction h with
  | whole b =>
    intro x hx
    rw [mem_singleton.mp hx]
    exact inside_self b
  | split _ _ hperm ihleft ihright =>
    intro x hx
    rcases mem_append.mp (hperm.mem_iff.mp hx) with hx | hx
    · exact (inside_of_half (.inl (ihleft x hx))).1
    · exact (inside_of_half (.inr (ihright x hx))).1

theorem eq_singleton (hb : b ∈ l) : l = [b] := by
  cases h with
  | whole => rfl
  | split hleft hright hperm =>
    rcases mem_append.mp (hperm.mem_iff.mp hb) with hb | hb
    · exact absurd (inside_of_half (.inl (hleft.inside b hb))).2 (lt_irrefl _)
    · exact absurd (inside_of_half (.inr (hright.inside b hb))).2 (lt_irrefl _)

/-- Splitting one block of a tiling. -/
theorem refine (hl : l.Perm (m :: l')) : Tiles b (m.left :: m.right :: l') := by
  induction h generalizing l' with
  | whole b =>
    cases singleton_perm.mp hl
    exact .split (.whole _) (.whole _) (Perm.refl _)
  | @split b l l₁ l₂ hleft hright hperm ihleft ihright =>
    have hboth : (l₁ ++ l₂).Perm (m :: l') := hperm.symm.trans hl
    rcases mem_append.mp (hboth.mem_iff.mpr mem_cons_self) with hm | hm
    · -- The block is in the first half.
      have hl₁ := perm_cons_erase hm
      apply Tiles.split (ihleft hl₁) hright
      have hrest : l'.Perm (l₁.erase m ++ l₂) :=
        Perm.cons_inv (hboth.symm.trans (hl₁.append_right l₂))
      exact (hrest.cons m.right).cons m.left
    · have hl₂ := perm_cons_erase hm
      apply Tiles.split hleft (ihright hl₂)
      have hrest : l'.Perm (l₁ ++ l₂.erase m) := by
        apply Perm.cons_inv (a := m)
        exact (hboth.symm.trans (hl₂.append_left l₁)).trans perm_middle
      refine ((hrest.cons m.right).cons m.left).trans ?_
      exact (perm_middle.trans (Perm.cons _ perm_middle)).symm

/-- Merging the two halves of a block in a tiling of a block around it. -/
theorem coarsen (hl : l.Perm (m.left :: m.right :: l')) : Tiles b (m :: l') := by
  induction h generalizing l' with
  | whole b =>
    have := hl.length_eq
    simp at this
  | @split b l l₁ l₂ hleft hright hperm ihleft ihright =>
    have hboth : (l₁ ++ l₂).Perm (m.left :: m.right :: l') := hperm.symm.trans hl
    have hmemLeft : m.left ∈ l₁ ++ l₂ := hboth.mem_iff.mpr (by simp)
    have hmemRight : m.right ∈ l₁ ++ l₂ := hboth.mem_iff.mpr (by simp)
    by_cases hmb : m = b
    · -- The halves are those of the whole.
      subst hmb
      have hl₁ : l₁ = [m.left] := by
        apply hleft.eq_singleton
        rcases mem_append.mp hmemLeft with hm | hm
        · exact hm
        · exact (not_inside_both (inside_self _) (hright.inside _ hm)).elim
      have hl₂ : l₂ = [m.right] := by
        apply hright.eq_singleton
        rcases mem_append.mp hmemRight with hm | hm
        · exact (not_inside_both (hleft.inside _ hm) (inside_self _)).elim
        · exact hm
      subst hl₁ hl₂
      have hnil : l' = [] := by
        have := hboth.length_eq
        simp only [length_append, length_cons, length_nil] at this
        exact length_eq_zero_iff.mp (by omega)
      rw [hnil]
      exact .whole m
    · rcases mem_append.mp hmemLeft with hm | hm
      · -- Both halves are in the first half.
        have hin := inside_halves hmb (.inl (hleft.inside _ hm))
        have hm' : m.right ∈ l₁ := by
          rcases mem_append.mp hmemRight with h | h
          · exact h
          · exact (not_inside_both hin.2 (hright.inside _ h)).elim
        have hl₁ := perm_cons_erase hm
        have hne : m.right ≠ m.left := by simp [Block.left, Block.right]
        have hl₁' := perm_cons_erase ((mem_erase_of_ne hne).mpr hm')
        have hsplit := hl₁.trans (hl₁'.cons m.left)
        apply Tiles.split (ihleft hsplit) hright
        have hrest : l'.Perm ((l₁.erase m.left).erase m.right ++ l₂) :=
          ((hboth.symm.trans (hsplit.append_right l₂)).cons_inv).cons_inv
        exact hrest.cons m
      · -- Neither half is in the first half.
        have hm' : m.right ∈ l₂ := by
          rcases mem_append.mp hmemRight with h | h
          · have hin := inside_halves hmb (.inr (hleft.inside _ h))
            exact (not_inside_both hin.1 (hright.inside _ hm)).elim
          · exact h
        have hl₂ := perm_cons_erase hm
        have hne : m.right ≠ m.left := by simp [Block.left, Block.right]
        have hl₂' := perm_cons_erase ((mem_erase_of_ne hne).mpr hm')
        have hsplit := hl₂.trans (hl₂'.cons m.left)
        apply Tiles.split hleft (ihright hsplit)
        have hmiddle : (l₁ ++ l₂).Perm (m.left :: m.right :: (l₁ ++ (l₂.erase m.left).erase m.right)) :=
          (hsplit.append_left l₁).trans
            (perm_middle.trans (Perm.cons _ perm_middle))
        have hrest : l'.Perm (l₁ ++ (l₂.erase m.left).erase m.right) :=
          ((hboth.symm.trans hmiddle).cons_inv).cons_inv
        exact (hrest.cons m).trans perm_middle.symm

theorem interval_subset : ∀ x ∈ l, x.interval ⊆ b.interval := by
  induction h with
  | whole b =>
    intro x hx
    rw [mem_singleton.mp hx]
  | split _ _ hperm ihleft ihright =>
    intro x hx
    rcases mem_append.mp (hperm.mem_iff.mp hx) with hx | hx
    · exact (ihleft x hx).trans (interval_left_subset _)
    · exact (ihright x hx).trans (interval_right_subset _)

/-- The blocks of a tiling are disjoint. -/
theorem pairwise_disjoint : l.Pairwise fun x y => Disjoint x.interval y.interval := by
  induction h with
  | whole b => exact pairwise_singleton _ b
  | @split b l l₁ l₂ hleft hright hperm ihleft ihright =>
    rw [hperm.pairwise_iff fun h => h.symm, pairwise_append]
    refine ⟨ihleft, ihright, ?_⟩
    intro x hx y hy
    exact (disjoint_halves b).mono (hleft.interval_subset x hx) (hright.interval_subset y hy)

theorem nodup : l.Nodup := by
  apply h.pairwise_disjoint.imp
  rintro x y hdisjoint rfl
  have hmem : x.index * share x.level ∈ x.interval := by
    refine ⟨le_rfl, ?_⟩
    have := share_pos x.level
    linarith
  exact Set.disjoint_left.mp hdisjoint hmem hmem

/-- The shares of a tiling add up to that of the whole. -/
theorem sum_share : (l.map fun x => share x.level).sum = share b.level := by
  induction h with
  | whole b => simp
  | @split b l l₁ l₂ _ _ hperm ihleft ihright =>
    rw [(hperm.map _).sum_eq, map_append, sum_append, ihleft, ihright]
    dsimp only [Block.left, Block.right]
    rw [share_succ]
    ring

/-- A tiling without two halves of one block is the whole. -/
theorem eq_whole (hbuddies : ∀ m : Block, ¬ (m.left ∈ l ∧ m.right ∈ l)) : l = [b] := by
  induction h with
  | whole b => rfl
  | @split b l l₁ l₂ _ _ hperm ihleft ihright =>
    have hsub₁ : ∀ x ∈ l₁, x ∈ l := fun x hx => hperm.mem_iff.mpr (mem_append_left _ hx)
    have hsub₂ : ∀ x ∈ l₂, x ∈ l := fun x hx => hperm.mem_iff.mpr (mem_append_right _ hx)
    have hl₁ := ihleft fun m hm => hbuddies m ⟨hsub₁ _ hm.1, hsub₁ _ hm.2⟩
    have hl₂ := ihright fun m hm => hbuddies m ⟨hsub₂ _ hm.1, hsub₂ _ hm.2⟩
    refine (hbuddies b ⟨hsub₁ _ ?_, hsub₂ _ ?_⟩).elim
    · rw [hl₁]
      exact mem_singleton_self _
    · rw [hl₂]
      exact mem_singleton_self _

end

end Tiles

end DyadicBlocks
