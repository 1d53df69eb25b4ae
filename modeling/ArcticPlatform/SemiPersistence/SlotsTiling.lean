import ArcticPlatform.SemiPersistence.Slots
import Mathlib.Data.Nat.Bitwise

/-!
# The slots of a GPU tile it

On every GPU of the pool the free and the live slots are a tiling of the unit, and no two
free slots are the halves of one slot.  Every call keeps that.

Main results:

- Theorem `run_valid`: the invariant holds after every sequence of calls.
- Theorem `slots_buddy_allocator`: what follows for the calls.
-/

namespace ArcticPlatform.SemiPersistence

open Dicts DyadicBlocks
open List hiding lookup Disjoint

/-! ## Free slots -/

/-- The slots that one queue has on a GPU. -/
def slotsOn (gpu : Nat) (p : (Nat × Nat) × List Slot) : List Slot := if p.1.1 = gpu then p.2 else []

/-- The free slots of a GPU. -/
def Pools.free (pools : Pools) (gpu : Nat) : List Slot := pools.entries.flatMap (slotsOn gpu)

/-- Every slot is in the queue of its GPU and level. -/
def Pools.Sorted (pools : Pools) : Prop :=
  ∀ gpu level, ∀ x ∈ pools.queue gpu level, x.gpuId = gpu ∧ x.level = level

theorem queue_set (pools : Pools) (gpu level : Nat) (q : List Slot) (gpu' level' : Nat) :
    Pools.queue (pools.set (gpu, level) q) gpu' level' =
      if gpu' = gpu ∧ level' = level then q else pools.queue gpu' level' := by
  unfold Pools.queue
  rw [Dict.get?_set]
  by_cases h : gpu' = gpu ∧ level' = level
  · obtain ⟨rfl, rfl⟩ := h
    simp
  · rw [if_neg h, if_neg (by simpa using h)]

variable {pools : Pools} {gpu level : Nat}

theorem sorted_set (hsorted : pools.Sorted) {q : List Slot}
    (hq : ∀ x ∈ q, x.gpuId = gpu ∧ x.level = level) : Pools.Sorted (pools.set (gpu, level) q) := by
  intro gpu' level' x hx
  rw [queue_set] at hx
  split_ifs at hx with h
  · rw [h.1, h.2]
    exact hq x hx
  · exact hsorted gpu' level' x hx

theorem free_set (pools : Pools) (gpu level : Nat) (q : List Slot) :
    (Pools.free (pools.set (gpu, level) q) gpu ++ pools.queue gpu level).Perm
      (pools.free gpu ++ q) := by
  have h := pools.flatMap_set (slotsOn gpu) (gpu, level) q
  have hold : ((pools.get? (gpu, level)).map fun w => slotsOn gpu ((gpu, level), w)).getD [] =
      pools.queue gpu level := by
    unfold Pools.queue slotsOn
    cases pools.get? (gpu, level) with
    | none => rfl
    | some w => simp
  rw [hold] at h
  unfold Pools.free
  simpa [slotsOn] using h

theorem free_set_other (pools : Pools) {gpu gpu' : Nat} (hne : gpu' ≠ gpu) (level : Nat)
    (q : List Slot) : (Pools.free (pools.set (gpu, level) q) gpu').Perm (pools.free gpu') := by
  have h := pools.flatMap_set (slotsOn gpu') (gpu, level) q
  have hold : ((pools.get? (gpu, level)).map fun w => slotsOn gpu' ((gpu, level), w)).getD [] = [] := by
    cases pools.get? (gpu, level) with
    | none => rfl
    | some w => simp [slotsOn, hne.symm]
  rw [hold] at h
  unfold Pools.free
  simpa [slotsOn, hne.symm] using h

variable {x : Slot}

theorem free_popleft {rest : List Slot} (hq : pools.queue gpu level = x :: rest) :
    (pools.free gpu).Perm (x :: Pools.free (pools.set (gpu, level) rest) gpu) := by
  have h := free_set pools gpu level rest
  rw [hq] at h
  have h' : (rest ++ (x :: Pools.free (pools.set (gpu, level) rest) gpu)).Perm
      (rest ++ pools.free gpu) :=
    (perm_append_comm.trans (perm_middle.symm)).trans (h.trans perm_append_comm)
  exact ((perm_append_left_iff rest).mp h').symm

theorem free_erase (hx : x ∈ pools.queue gpu level) :
    (pools.free gpu).Perm
      (x :: Pools.free (pools.set (gpu, level) ((pools.queue gpu level).erase x)) gpu) := by
  have h := free_set pools gpu level ((pools.queue gpu level).erase x)
  have hx' := perm_cons_erase hx
  have h' : ((pools.queue gpu level).erase x ++
      (x :: Pools.free (pools.set (gpu, level) ((pools.queue gpu level).erase x)) gpu)).Perm
      ((pools.queue gpu level).erase x ++ pools.free gpu) := by
    refine (perm_append_comm.trans perm_middle.symm).trans ?_
    exact (hx'.symm.append_left _).trans (h.trans perm_append_comm)
  exact ((perm_append_left_iff _).mp h').symm

theorem free_append (pools : Pools) (x : Slot) :
    (Pools.free (pools.append x) x.gpuId).Perm (x :: pools.free x.gpuId) := by
  have h := free_set pools x.gpuId x.level (pools.queue x.gpuId x.level ++ [x])
  rw [Pools.append]
  have h' : (pools.queue x.gpuId x.level ++
      Pools.free (pools.set (x.gpuId, x.level) (pools.queue x.gpuId x.level ++ [x])) x.gpuId).Perm
      (pools.queue x.gpuId x.level ++ (x :: pools.free x.gpuId)) := by
    refine perm_append_comm.trans (h.trans ?_)
    rw [← append_assoc]
    refine (perm_append_comm.append_right [x]).trans ?_
    rw [append_assoc]
    exact perm_append_comm.append_left _
  exact (perm_append_left_iff _).mp h'

theorem sorted_append (hsorted : pools.Sorted) (x : Slot) : (pools.append x).Sorted := by
  apply sorted_set hsorted
  intro y hy
  rcases mem_append.mp hy with hy | hy
  · exact hsorted _ _ y hy
  · rw [mem_singleton.mp hy]
    exact ⟨rfl, rfl⟩

theorem mem_queue_of_free (hsorted : pools.Sorted) {gpu : Nat} (hx : x ∈ pools.free gpu) :
    x ∈ pools.queue gpu x.level ∧ x.gpuId = gpu := by
  obtain ⟨⟨⟨g, level⟩, q⟩, hp, hxq⟩ := mem_flatMap.mp hx
  unfold slotsOn at hxq
  split_ifs at hxq with hg
  · dsimp only at hg hxq
    subst hg
    have hget := (Dict.get?_eq_some pools).mpr hp
    have hqueue : pools.queue g level = q := by rw [Pools.queue, hget]; rfl
    have hx' := hsorted g level x (hqueue ▸ hxq)
    rw [hx'.2, hqueue]
    exact ⟨hxq, hx'.1⟩
  · cases hxq

theorem mem_free_of_queue (hx : x ∈ pools.queue gpu level) : x ∈ pools.free gpu := by
  unfold Pools.queue at hx
  cases hget : pools.get? (gpu, level) with
  | none =>
    rw [hget] at hx
    cases hx
  | some q =>
    rw [hget] at hx
    apply mem_flatMap.mpr
    exact ⟨_, (Dict.get?_eq_some pools).mp hget, by simpa [slotsOn] using hx⟩

theorem queue_eq_nil_of_free (hfree : pools.free gpu = []) : pools.queue gpu level = [] := by
  apply eq_nil_iff_forall_not_mem.mpr
  intro x hx
  have := mem_free_of_queue hx
  rw [hfree] at this
  cases this

/-! ## Tilings -/

/-- The whole GPU. -/
def wholeGpu : Block := ⟨1, 0⟩

/-- No two of the slots are the halves of one block. -/
def NoBuddies (slots : List Slot) : Prop :=
  ∀ m : Block, ¬ (m.left ∈ slots.map Slot.block ∧ m.right ∈ slots.map Slot.block)

theorem NoBuddies.mono {slots slots' : List Slot} (h : NoBuddies slots)
    (hsub : ∀ x ∈ slots', x ∈ slots) : NoBuddies slots' := by
  have hmap : ∀ b, b ∈ slots'.map Slot.block → b ∈ slots.map Slot.block := by
    intro b hb
    obtain ⟨x, hx, rfl⟩ := mem_map.mp hb
    exact mem_map_of_mem (hsub x hx)
  exact fun m hm => h m ⟨hmap _ hm.1, hmap _ hm.2⟩

/-- Slots tile the GPU. -/
def Tile (slots : List Slot) : Prop := Tiles wholeGpu (slots.map Slot.block)

theorem Tile.perm {slots slots' : List Slot} (h : Tile slots) (hperm : slots'.Perm slots) :
    Tile slots' := Tiles.perm h (hperm.map Slot.block)

theorem block_split (s : Slot) :
    (split s).1.block = s.block.left ∧ (split s).2.block = s.block.right := ⟨rfl, rfl⟩

variable {s : Slot}

theorem Tile.split {slots : List Slot} (h : Tile (s :: slots)) :
    Tile ((SemiPersistence.split s).1 :: (SemiPersistence.split s).2 :: slots) :=
  Tiles.refine h (Perm.refl _)

theorem noBuddies_right {free others : List Slot}
    (htile : Tile ((split s).1 :: (split s).2 :: (free ++ others))) (hno : NoBuddies free) :
    NoBuddies ((split s).2 :: free) := by
  intro m hm
  have hnodup := Tiles.nodup htile
  rw [map_cons, map_cons, nodup_cons] at hnodup
  have hleft : (split s).1.block ∉ free.map Slot.block := by
    intro hmem
    apply hnodup.1
    rw [map_append]
    exact mem_cons_of_mem _ (mem_append_left _ hmem)
  rw [map_cons, (block_split s).2, mem_cons, mem_cons] at hm
  obtain ⟨hm₁, hm₂⟩ := hm
  rcases hm₁ with hm₁ | hm₁
  · -- A first half is no second half.
    have := congrArg Block.index hm₁
    dsimp only [Block.left, Block.right] at this
    omega
  · rcases hm₂ with hm₂ | hm₂
    · rw [Block.right_injective hm₂] at hm₁
      exact hleft hm₁
    · exact hno m ⟨hm₁, hm₂⟩

/-- A slot of a level has been taken from the free slots of a GPU, of which it was a part or one; on
that GPU there are `others` besides. -/
structure Taken (pools : Pools) (gpu level : Nat) (others : List Slot) (slot : Slot)
    (pools' : Pools) : Prop where
  onGpu : slot.gpuId = gpu
  ofLevel : slot.level = level
  sorted : pools'.Sorted
  tile : Tile (slot :: (pools'.free gpu ++ others))
  noBuddies : NoBuddies (pools'.free gpu)
  frame : ∀ g, g ≠ gpu → (pools'.free g).Perm (pools.free g)

variable {others : List Slot}

theorem splitDown_taken (n : Nat) (hsorted : pools.Sorted)
    (htile : Tile (s :: (pools.free s.gpuId ++ others))) (hno : NoBuddies (pools.free s.gpuId)) :
    Taken pools s.gpuId (s.level + n) others (splitDown pools s n).1 (splitDown pools s n).2 := by
  induction n generalizing pools s with
  | zero => exact ⟨rfl, rfl, hsorted, htile, hno, fun _ _ => Perm.refl _⟩
  | succ n ih =>
    have hsplit := htile.split
    have hfree : (Pools.free (pools.append (split s).2) s.gpuId).Perm
        ((split s).2 :: pools.free s.gpuId) := free_append pools (split s).2
    have hnext : Tile ((split s).1 :: (Pools.free (pools.append (split s).2) s.gpuId ++ others)) :=
      hsplit.perm ((hfree.append_right others).cons _)
    have hno' : NoBuddies (Pools.free (pools.append (split s).2) s.gpuId) :=
      (noBuddies_right hsplit hno).mono fun x hx => hfree.mem_iff.mp hx
    have htaken := ih (s := (split s).1) (sorted_append hsorted _) hnext hno'
    refine ⟨htaken.onGpu, ?_, htaken.sorted, htaken.tile, htaken.noBuddies, ?_⟩
    · rw [splitDown, htaken.ofLevel]
      dsimp only [split]
      omega
    · intro g hg
      exact (htaken.frame g hg).trans (free_set_other pools hg _ _)

theorem popFreeInSubtree_none {gpu level L : Nat} (hsorted : pools.Sorted)
    (h : popFreeInSubtree pools gpu level L = none) :
    ∀ x ∈ pools.free gpu, x.level = 0 ∨ L < x.level := by
  induction L with
  | zero =>
    intro x _
    omega
  | succ L ih =>
    rw [popFreeInSubtree] at h
    split at h
    · cases h
    · rename_i hq
      intro x hx
      have hmem := (mem_queue_of_free hsorted hx).1
      rcases ih h x hx with hzero | hlt
      · exact .inl hzero
      · right
        by_contra hle
        rw [show x.level = L + 1 by omega, hq] at hmem
        cases hmem

theorem popFreeInSubtree_some {pools pools' : Pools} {gpu level L : Nat} {slot : Slot}
    (hsorted : pools.Sorted) (htile : Tile (pools.free gpu ++ others))
    (hno : NoBuddies (pools.free gpu)) (hL : L ≤ level)
    (h : popFreeInSubtree pools gpu level L = some (slot, pools')) :
    Taken pools gpu level others slot pools' := by
  induction L with
  | zero => cases h
  | succ L ih =>
    rw [popFreeInSubtree] at h
    split at h
    · rename_i s rest hq
      have hs := hsorted gpu (L + 1) s (by rw [hq]; exact mem_cons_self)
      have hfree := free_popleft hq
      have hsorted' : Pools.Sorted (pools.set (gpu, L + 1) rest) := by
        apply sorted_set hsorted
        exact fun x hx => hsorted gpu (L + 1) x (by rw [hq]; exact mem_cons_of_mem _ hx)
      obtain ⟨rfl, hlevel⟩ := hs
      have htile' := htile.perm (hfree.append_right others).symm
      have hno' : NoBuddies (Pools.free (pools.set (s.gpuId, L + 1) rest) s.gpuId) :=
        hno.mono fun x hx => hfree.mem_iff.mpr (mem_cons_of_mem _ hx)
      have htaken := splitDown_taken (level - s.level) hsorted' htile' hno'
      rw [show s.level + (level - s.level) = level by omega, Option.some.inj h] at htaken
      refine { htaken with frame := ?_ }
      intro g hg
      exact (htaken.frame g hg).trans (free_set_other pools hg _ _)
    · exact ih (by omega) h

/-! ## Coalescing -/

theorem buddyIndex_cases (index : Nat) :
    (∃ i, index = 2 * i ∧ buddyIndex index = 2 * i + 1) ∨
      ∃ i, index = 2 * i + 1 ∧ buddyIndex index = 2 * i := by
  rcases Nat.even_or_odd' index with ⟨i, rfl | rfl⟩
  · exact .inl ⟨i, rfl, Nat.xor_one_of_even (even_two_mul i)⟩
  · refine .inr ⟨i, rfl, ?_⟩
    rw [buddyIndex, Nat.xor_one_of_odd (odd_two_mul_add_one i)]
    rfl

/-- A slot has been given back to a GPU and merged into a larger one, of which no buddy is free. -/
structure Merged (pools : Pools) (gpu : Nat) (others : List Slot) (slot : Slot) (pools' : Pools) :
    Prop where
  onGpu : slot.gpuId = gpu
  sorted : pools'.Sorted
  tile : Tile (slot :: (pools'.free gpu ++ others))
  noBuddies : NoBuddies (slot :: pools'.free gpu)
  frame : ∀ g, g ≠ gpu → (pools'.free g).Perm (pools.free g)

/-- A slot without a free buddy adds no pair of halves. -/
theorem noBuddies_cons {slot : Slot} {free : List Slot} (hno : NoBuddies free)
    (hbuddy : ∀ x ∈ free, ¬ (x.level = slot.level ∧ x.index = buddyIndex slot.index)) :
    NoBuddies (slot :: free) := by
  have hfree : ∀ b : Block, b ∈ free.map Slot.block → b.level = slot.level →
      b.index ≠ buddyIndex slot.index := by
    intro b hb hlevel hindex
    obtain ⟨x, hx, rfl⟩ := mem_map.mp hb
    exact hbuddy x hx ⟨hlevel, hindex⟩
  intro m hm
  rw [map_cons, mem_cons, mem_cons] at hm
  rcases hm with ⟨hm₁ | hm₁, hm₂ | hm₂⟩
  · have := congrArg Block.index (hm₁.trans hm₂.symm)
    dsimp only [Block.left, Block.right] at this
    omega
  · have hl : slot.level = m.level + 1 := (congrArg Block.level hm₁).symm
    have hi : slot.index = 2 * m.index := (congrArg Block.index hm₁).symm
    apply hfree _ hm₂ hl.symm
    rcases buddyIndex_cases slot.index with ⟨i, h, h'⟩ | ⟨i, h, h'⟩
    · rw [h']
      dsimp only [Block.right]
      omega
    · omega
  · have hl : slot.level = m.level + 1 := (congrArg Block.level hm₂).symm
    have hi : slot.index = 2 * m.index + 1 := (congrArg Block.index hm₂).symm
    apply hfree _ hm₁ hl.symm
    rcases buddyIndex_cases slot.index with ⟨i, h, h'⟩ | ⟨i, h, h'⟩
    · omega
    · rw [h']
      dsimp only [Block.left]
      omega
  · exact hno m ⟨hm₁, hm₂⟩

theorem Tile.merge {gpu L index : Nat} {buddy : Slot} {slots : List Slot}
    (h : Tile (⟨gpu, L + 2, index⟩ :: buddy :: slots)) (hlevel : buddy.level = L + 2)
    (hindex : buddy.index = buddyIndex index) : Tile (⟨gpu, L + 1, index / 2⟩ :: slots) := by
  have hblock : buddy.block = ⟨L + 2, buddyIndex index⟩ := by rw [Slot.block, hlevel, hindex]
  rcases buddyIndex_cases index with ⟨i, rfl, h'⟩ | ⟨i, rfl, h'⟩
  · have hhalf : 2 * i / 2 = i := by omega
    rw [hhalf]
    refine Tiles.coarsen (m := ⟨L + 1, i⟩) h ?_
    rw [map_cons, map_cons, hblock, h']
    exact Perm.refl _
  · have hhalf : (2 * i + 1) / 2 = i := by omega
    rw [hhalf]
    refine Tiles.coarsen (m := ⟨L + 1, i⟩) h ?_
    rw [map_cons, map_cons, hblock, h']
    exact Perm.swap _ _ _

theorem coalesce_merged {gpu : Nat} (level index : Nat) (hsorted : pools.Sorted)
    (htile : Tile (⟨gpu, level, index⟩ :: (pools.free gpu ++ others)))
    (hno : NoBuddies (pools.free gpu)) :
    Merged pools gpu others (coalesce pools gpu level index).1 (coalesce pools gpu level index).2 := by
  fun_induction coalesce pools gpu level index with
  | case1 pools index =>
    -- There is no slot of level zero in a tiling.
    have := (Tiles.inside htile ⟨0, index⟩ mem_cons_self).1
    simp [wholeGpu] at this
  | case2 pools index =>
    refine ⟨rfl, hsorted, htile, noBuddies_cons hno ?_, fun _ _ => Perm.refl _⟩
    -- The whole GPU is the only slot of its level.
    rintro x hx ⟨hlevel, hindex⟩
    dsimp only at hlevel hindex
    have hinside := Tiles.inside htile x.block (mem_cons_of_mem _ (mem_map_of_mem
      (mem_append_left _ hx)))
    have hself := Tiles.inside htile ⟨1, index⟩ mem_cons_self
    have hx0 := hinside.2
    have hs0 := hself.2
    simp only [Slot.block, hlevel, wholeGpu, Nat.sub_self, pow_zero, Nat.div_one] at hx0 hs0
    rcases buddyIndex_cases index with ⟨i, h, h'⟩ | ⟨i, h, h'⟩ <;> omega
  | case3 pools L index hnone =>
    refine ⟨rfl, hsorted, htile, noBuddies_cons hno ?_, fun _ _ => Perm.refl _⟩
    rintro x hx ⟨hlevel, hindex⟩
    have hmem := (mem_queue_of_free hsorted hx).1
    rw [hlevel] at hmem
    have := find?_eq_none.mp hnone x hmem
    simp [hindex] at this
  | case4 pools L index buddy hfind ih =>
    have hmem := mem_of_find?_eq_some hfind
    have hbuddy := hsorted gpu (L + 2) buddy hmem
    have hindex : buddy.index = buddyIndex index := by simpa using find?_some hfind
    have hfree := free_erase hmem
    have hsorted' : Pools.Sorted (pools.set (gpu, L + 2) ((pools.queue gpu (L + 2)).erase buddy)) := by
      apply sorted_set hsorted
      exact fun x hx => hsorted gpu (L + 2) x (mem_of_mem_erase hx)
    have hpair := htile.perm ((hfree.append_right others).cons _).symm
    have hmerged := ih hsorted' (hpair.merge hbuddy.2 hindex)
      (hno.mono fun x hx => hfree.mem_iff.mpr (mem_cons_of_mem _ hx))
    refine { hmerged with frame := ?_ }
    intro g hg
    exact (hmerged.frame g hg).trans (free_set_other pools hg _ _)

/-! ## The invariant -/

section Invariant

variable {τ : Type}

/-- The live slots of a GPU. -/
def SlotsState.liveOn (s : SlotsState τ) (gpu : Nat) : List Slot := s.live.filter (·.gpuId = gpu)

/-- On the GPUs of the pool the free and the live slots tile the GPU, and no two free slots are
buddies; on other GPUs there are no slots. -/
structure Valid (s : SlotsState τ) : Prop where
  sorted : s.pools.Sorted
  tile : ∀ g ∈ s.lastUsed.keys, Tile (s.pools.free g ++ s.liveOn g)
  noBuddies : ∀ g ∈ s.lastUsed.keys, NoBuddies (s.pools.free g)
  outside : ∀ g, g ∉ s.lastUsed.keys → s.pools.free g = [] ∧ s.liveOn g = []

theorem liveOn_cons (s : SlotsState τ) (slot : Slot) (gpu : Nat) (pools : Pools) (waiters : List Waiter) :
    SlotsState.liveOn { s with pools := pools, waiters := waiters, live := slot :: s.live } gpu =
      if slot.gpuId = gpu then slot :: s.liveOn gpu else s.liveOn gpu := by
  unfold SlotsState.liveOn
  rw [filter_cons]
  simp only [decide_eq_true_eq]

variable {s : SlotsState τ} {slot : Slot} {pools : Pools}

theorem valid_taken (hvalid : Valid s) {gpu level : Nat} {waiters : List Waiter}
    (hgpu : gpu ∈ s.lastUsed.keys) (htaken : Taken s.pools gpu level (s.liveOn gpu) slot pools) :
    Valid { s with pools := pools, waiters := waiters, live := slot :: s.live } := by
  have hperm : ∀ g, g ≠ gpu → (pools.free g).Perm (s.pools.free g) := htaken.frame
  refine ⟨htaken.sorted, ?_, ?_, ?_⟩
  · intro g hg
    rw [liveOn_cons, htaken.onGpu]
    by_cases hgg : gpu = g
    · subst hgg
      rw [if_pos rfl]
      exact htaken.tile.perm perm_middle
    · rw [if_neg hgg]
      exact (hvalid.tile g hg).perm ((hperm g (Ne.symm hgg)).append_right _)
  · intro g hg
    by_cases hgg : gpu = g
    · subst hgg
      exact htaken.noBuddies
    · exact (hvalid.noBuddies g hg).mono fun x hx => (hperm g (Ne.symm hgg)).mem_iff.mp hx
  · intro g hg
    have hgg : gpu ≠ g := fun h => hg (h ▸ hgpu)
    obtain ⟨hfree, hlive⟩ := hvalid.outside g hg
    rw [liveOn_cons, htaken.onGpu, if_neg hgg]
    refine ⟨?_, hlive⟩
    apply Perm.eq_nil
    rw [← hfree]
    exact hperm g (Ne.symm hgg)

theorem popFreeInSubtree_taken (hvalid : Valid s) {gpu level : Nat}
    (h : popFreeInSubtree s.pools gpu level level = some (slot, pools)) :
    gpu ∈ s.lastUsed.keys ∧ Taken s.pools gpu level (s.liveOn gpu) slot pools := by
  have hgpu : gpu ∈ s.lastUsed.keys := by
    by_contra hnot
    have hempty := (hvalid.outside gpu hnot).1
    have hnone : ∀ L, popFreeInSubtree s.pools gpu level L = none := by
      intro L
      induction L with
      | zero => rfl
      | succ L ih => rw [popFreeInSubtree, queue_eq_nil_of_free hempty, ih]
    rw [hnone] at h
    cases h
  exact ⟨hgpu, popFreeInSubtree_some hvalid.sorted (hvalid.tile gpu hgpu) (hvalid.noBuddies gpu hgpu)
    le_rfl h⟩

variable {level : Nat}

theorem tryGpus_some (hvalid : Valid s) {gpus : List Nat}
    (h : tryGpus s.pools s.draining level gpus = some (slot, pools)) :
    ∃ gpu ∈ s.lastUsed.keys, gpu ∉ s.draining ∧
      Taken s.pools gpu level (s.liveOn gpu) slot pools := by
  induction gpus with
  | nil => cases h
  | cons g gpus ih =>
    rw [tryGpus] at h
    split_ifs at h with hdraining
    · exact ih h
    · split at h
      · rename_i found hfound
        rw [Option.some.inj h] at hfound
        obtain ⟨hgpu, htaken⟩ := popFreeInSubtree_taken hvalid hfound
        exact ⟨g, hgpu, hdraining, htaken⟩
      · exact ih h

theorem tryGpus_none (hsorted : s.pools.Sorted) {gpus : List Nat}
    (h : tryGpus s.pools s.draining level gpus = none) :
    ∀ g ∈ gpus, g ∉ s.draining → ∀ x ∈ s.pools.free g, x.level = 0 ∨ level < x.level := by
  induction gpus with
  | nil => simp
  | cons g gpus ih =>
    rw [tryGpus] at h
    intro g' hg' hdraining'
    split_ifs at h with hdraining
    · rcases mem_cons.mp hg' with rfl | hg'
      · exact absurd hdraining hdraining'
      · exact ih h g' hg' hdraining'
    · split at h
      · cases h
      · rename_i hnone
        rcases mem_cons.mp hg' with rfl | hg'
        · exact popFreeInSubtree_none hsorted hnone
        · exact ih h g' hg' hdraining'

theorem level_pos (hvalid : Valid s) {g : Nat} {x : Slot} (hx : x ∈ s.pools.free g) :
    1 ≤ x.level := by
  by_cases hg : g ∈ s.lastUsed.keys
  · exact (Tiles.inside (hvalid.tile g hg) x.block (mem_map_of_mem
      (mem_append_left _ hx))).1
  · rw [(hvalid.outside g hg).1] at hx
    cases hx

section Requests

variable [LinearOrder τ]

theorem tryAllocateIn_some {s : SlotsState τ} (hvalid : Valid s) {level : Nat} {gpu : Option Nat}
    {slot : Slot} {pools : Pools} (h : tryAllocateIn s level gpu = some (slot, pools)) :
    ∃ g ∈ s.lastUsed.keys, g ∉ s.draining ∧ (∀ pinned, gpu = some pinned → g = pinned) ∧
      Taken s.pools g level (s.liveOn g) slot pools := by
  cases gpu with
  | none =>
    obtain ⟨g, hg, hdraining, htaken⟩ := tryGpus_some hvalid h
    exact ⟨g, hg, hdraining, by simp, htaken⟩
  | some pinned =>
    rw [tryAllocateIn] at h
    split_ifs at h with hdraining
    obtain ⟨hgpu, htaken⟩ := popFreeInSubtree_taken hvalid h
    exact ⟨pinned, hgpu, hdraining, by simp, htaken⟩

theorem mem_coldestFirst {lastUsed : Dict Nat τ} {g : Nat} :
    g ∈ coldestFirst lastUsed ↔ g ∈ lastUsed.keys := by
  unfold coldestFirst Dict.keys
  exact ((mergeSort_perm _ _).map Prod.fst).mem_iff

/-- An unpinned request that fails has met no free slot that is large enough, on any GPU that is not
draining. -/
theorem tryAllocateIn_none {s : SlotsState τ} (hvalid : Valid s) {level : Nat}
    (h : tryAllocateIn s level none = none) :
    ∀ g ∈ s.lastUsed.keys, g ∉ s.draining → ∀ x ∈ s.pools.free g, level < x.level := by
  intro g hg hdraining x hx
  rcases tryGpus_none hvalid.sorted h g (mem_coldestFirst.mpr hg) hdraining x hx with hzero | hlt
  · have := level_pos hvalid hx
    omega
  · exact hlt

end Requests

/-! ## Every call keeps the invariant -/

theorem Valid.withWaiters (hvalid : Valid s) (waiters : List Waiter) :
    Valid { s with waiters := waiters } :=
  ⟨hvalid.sorted, hvalid.tile, hvalid.noBuddies, hvalid.outside⟩

section Allocate

variable [LinearOrder τ]

variable {s : SlotsState τ}

theorem attempt_valid (hvalid : Valid s) (me : Waiter) : Valid (attempt s me).1 := by
  unfold attempt
  split_ifs
  · split
    · rename_i slot pools h
      obtain ⟨g, hg, -, -, htaken⟩ := tryAllocateIn_some hvalid h
      exact valid_taken hvalid hg htaken
    · exact hvalid
  · exact hvalid

theorem allocate_valid (hvalid : Valid s) (me : Waiter) : Valid (allocate s me).1 := by
  unfold allocate
  split_ifs
  · exact hvalid
  · exact hvalid
  · exact attempt_valid (hvalid.withWaiters _) me

theorem wakeUp_valid (hvalid : Valid s) (me : Waiter) : Valid (wakeUp s me).1 := by
  unfold wakeUp
  split_ifs
  · exact attempt_valid hvalid me
  · exact hvalid

theorem tryAllocate_valid (hvalid : Valid s) (level : Nat) (gpu : Option Nat) :
    Valid (tryAllocate s level gpu).1 := by
  unfold tryAllocate
  split_ifs
  · exact hvalid
  · exact hvalid
  · split
    · rename_i slot pools h
      obtain ⟨g, hg, -, -, htaken⟩ := tryAllocateIn_some hvalid h
      exact valid_taken hvalid hg htaken
    · exact hvalid

end Allocate

/-- Giving a slot back. -/
theorem deallocate_valid (hvalid : Valid s) (slot : Slot) (now : τ) :
    Valid (deallocate s slot now).1 := by
  unfold deallocate
  split_ifs with hinited hlive
  · exact hvalid
  · dsimp only
    have hon : slot ∈ s.liveOn slot.gpuId := by simpa [SlotsState.liveOn] using hlive
    have hgpu : slot.gpuId ∈ s.lastUsed.keys := by
      by_contra hnot
      rw [(hvalid.outside _ hnot).2] at hon
      cases hon
    have hlast : ∀ g, g ∈ (if (coalesce s.pools slot.gpuId slot.level slot.index).1.level = 1 then
        s.lastUsed.set slot.gpuId now else s.lastUsed).keys ↔ g ∈ s.lastUsed.keys := by
      intro g
      split_ifs
      · rw [Dict.mem_keys_set]
        constructor
        · rintro (rfl | hg)
          · exact hgpu
          · exact hg
        · exact .inr
      · exact Iff.rfl
    have herase : (s.liveOn slot.gpuId).Perm
        (slot :: (s.live.erase slot).filter (·.gpuId = slot.gpuId)) := by
      have h := (perm_cons_erase hlive).filter fun x => decide (x.gpuId = slot.gpuId)
      rwa [filter_cons_of_pos (by simp)] at h
    have hother : ∀ g, g ≠ slot.gpuId →
        ((s.live.erase slot).filter (·.gpuId = g)).Perm (s.liveOn g) := by
      intro g hg
      have h := (perm_cons_erase hlive).filter fun x => decide (x.gpuId = g)
      rw [filter_cons_of_neg (by simpa using Ne.symm hg)] at h
      exact h.symm
    have htile : Tile (slot :: (s.pools.free slot.gpuId ++
        (s.live.erase slot).filter (·.gpuId = slot.gpuId))) :=
      (hvalid.tile _ hgpu).perm ((herase.append_left _).trans perm_middle).symm
    have hmerged := coalesce_merged slot.level slot.index hvalid.sorted htile
      (hvalid.noBuddies _ hgpu)
    generalize coalesce s.pools slot.gpuId slot.level slot.index = merged at hmerged hlast
    have hfree := free_append merged.2 merged.1
    rw [hmerged.onGpu] at hfree
    have hframe : ∀ g, g ≠ slot.gpuId →
        (Pools.free (merged.2.append merged.1) g).Perm (s.pools.free g) := by
      intro g hg
      exact (free_set_other merged.2 (hmerged.onGpu ▸ hg) _ _).trans (hmerged.frame g hg)
    refine ⟨sorted_append hmerged.sorted _, ?_, ?_, ?_⟩
    · intro g hg
      rw [hlast] at hg
      by_cases hgg : g = slot.gpuId
      · subst hgg
        exact hmerged.tile.perm (hfree.append_right _)
      · exact (hvalid.tile g hg).perm ((hframe g hgg).append (hother g hgg))
    · intro g hg
      rw [hlast] at hg
      by_cases hgg : g = slot.gpuId
      · subst hgg
        exact hmerged.noBuddies.mono fun x hx => hfree.mem_iff.mp hx
      · exact (hvalid.noBuddies g hg).mono fun x hx => (hframe g hgg).mem_iff.mp hx
    · intro g hg
      rw [hlast] at hg
      have hgg : g ≠ slot.gpuId := fun h => hg (h ▸ hgpu)
      obtain ⟨hfree0, hlive0⟩ := hvalid.outside g hg
      constructor
      · apply Perm.eq_nil
        rw [← hfree0]
        exact hframe g hgg
      · apply Perm.eq_nil
        rw [← hlive0]
        exact hother g hgg
  · exact hvalid

theorem queue_erase (pools : Pools) (key : Nat × Nat) (gpu level : Nat) :
    Pools.queue (pools.erase key) gpu level =
      if (gpu, level) = key then [] else pools.queue gpu level := by
  unfold Pools.queue
  rw [Dict.get?_erase]
  split_ifs <;> rfl

theorem free_erase_other (pools : Pools) {key : Nat × Nat} {g : Nat} (hne : g ≠ key.1) :
    (Pools.free (pools.erase key) g).Perm (pools.free g) := by
  have h := pools.flatMap_erase (slotsOn g) key
  have hold : ((pools.get? key).map fun w => slotsOn g (key, w)).getD [] = [] := by
    cases pools.get? key with
    | none => rfl
    | some w => simp [slotsOn, hne.symm]
  rw [hold, append_nil] at h
  exact h

variable {gpu : Nat}

/-- The loop of `pop`, when the queues besides the one of whole GPUs are empty. -/
theorem popQueues_spec {keys : List (Nat × Nat)} (hsorted : pools.Sorted)
    (hkeys : ∀ key ∈ keys, key.1 = gpu) (hempty : ∀ level, level ≠ 1 → pools.queue gpu level = []) :
    (popQueues pools keys).2 = true ∧ (popQueues pools keys).1.Sorted ∧
      (∀ g, g ≠ gpu → ((popQueues pools keys).1.free g).Perm (pools.free g)) ∧
      ∀ key, (popQueues pools keys).1.get? key = if key ∈ keys then none else pools.get? key := by
  induction keys generalizing pools with
  | nil => exact ⟨rfl, hsorted, fun _ _ => Perm.refl _, fun _ => rfl⟩
  | cons key keys ih =>
    have hkey := hkeys key mem_cons_self
    have hcond : ¬ (key.2 ≠ 1 ∧ pools.queue key.1 key.2 ≠ []) := by
      rintro ⟨hlevel, hne⟩
      rw [hkey] at hne
      exact hne (hempty key.2 hlevel)
    have hsorted' : Pools.Sorted (pools.erase key) := by
      intro g level x hx
      rw [queue_erase] at hx
      split_ifs at hx
      · cases hx
      · exact hsorted g level x hx
    have hempty' : ∀ level, level ≠ 1 → Pools.queue (pools.erase key) gpu level = [] := by
      intro level hlevel
      rw [queue_erase, hempty level hlevel, ite_self]
    obtain ⟨hok, hsorted'', hframe, hget⟩ :=
      ih hsorted' (fun k hk => hkeys k (mem_cons_of_mem _ hk)) hempty'
    rw [popQueues, if_neg hcond]
    refine ⟨hok, hsorted'', ?_, ?_⟩
    · intro g hg
      exact (hframe g hg).trans (free_erase_other pools (hkey ▸ hg))
    · intro k
      rw [hget, Dict.get?_erase]
      by_cases hk : k = key
      · simp [hk]
      · simp [hk]

section

variable (hvalid : Valid s)
include hvalid

theorem free_eq_whole (hgpu : gpu ∈ s.lastUsed.keys)
    (hlive : s.liveOn gpu = []) : s.pools.free gpu = [⟨gpu, 1, 0⟩] := by
  have htile := hvalid.tile gpu hgpu
  rw [hlive, append_nil] at htile
  have hblocks := Tiles.eq_whole htile (hvalid.noBuddies gpu hgpu)
  have hlength : (s.pools.free gpu).length = 1 := by simpa using congrArg List.length hblocks
  obtain ⟨x, hfree⟩ := List.length_eq_one_iff.mp hlength
  have hx : x ∈ s.pools.free gpu := by rw [hfree]; exact mem_singleton_self x
  have hgpuId := (mem_queue_of_free hvalid.sorted hx).2
  have hblock : x.block = wholeGpu := by simpa [hfree] using hblocks
  rw [hfree]
  obtain ⟨g, level, index⟩ := x
  cases hgpuId
  cases hblock
  rfl

theorem queue_eq_nil (hgpu : gpu ∈ s.lastUsed.keys) (hlive : s.liveOn gpu = [])
    (hlevel : level ≠ 1) : s.pools.queue gpu level = [] := by
  apply eq_nil_iff_forall_not_mem.mpr
  intro x hx
  have hmem := mem_free_of_queue hx
  rw [free_eq_whole hvalid hgpu hlive, mem_singleton] at hmem
  have := (hvalid.sorted gpu level x hx).2
  rw [hmem] at this
  exact hlevel this.symm

theorem popQueues_idle (hgpu : gpu ∈ s.lastUsed.keys) (hlive : s.liveOn gpu = []) :
    let keys := s.pools.keys.filter fun k => k.1 = gpu
    (popQueues s.pools keys).2 = true ∧ (popQueues s.pools keys).1.Sorted ∧
      (∀ g, g ≠ gpu → ((popQueues s.pools keys).1.free g).Perm (s.pools.free g)) ∧
      ∀ key, (popQueues s.pools keys).1.get? key =
        if key ∈ keys then none else s.pools.get? key := by
  apply popQueues_spec hvalid.sorted
  · intro key hkey
    simpa using (mem_filter.mp hkey).2
  · intro level hlevel
    exact queue_eq_nil hvalid hgpu hlive hlevel

theorem pop_valid (gpu : Nat) : Valid (pop s gpu).1 := by
  unfold pop
  by_cases hinited : (!s.inited) = true
  · rw [if_pos hinited]
    exact hvalid
  by_cases hlive : (s.live.any fun x => decide (x.gpuId = gpu)) = true
  · rw [if_neg hinited, if_pos hlive]
    exact hvalid
  by_cases hroot : (s.pools.queue gpu 1).length ≠ 1
  · rw [if_neg hinited, if_neg hlive, if_pos hroot]
    exact hvalid
  rw [if_neg hinited, if_neg hlive, if_neg hroot]
  dsimp only
  have hliveOn : s.liveOn gpu = [] := by
    apply filter_eq_nil_iff.mpr
    intro x hx
    simp only [any_eq_true, not_exists, not_and] at hlive
    exact hlive x hx
  have hgpu : gpu ∈ s.lastUsed.keys := by
    by_contra hnot
    have hfree := (hvalid.outside gpu hnot).1
    rw [queue_eq_nil_of_free hfree] at hroot
    exact hroot (by simp)
  obtain ⟨hok, hsorted, hframe, hget⟩ := popQueues_idle hvalid hgpu hliveOn
  rw [if_pos hok]
  refine ⟨hsorted, ?_, ?_, ?_⟩
  · intro g hg
    have hg := s.lastUsed.mem_keys_erase.mp hg
    exact (hvalid.tile g hg.2).perm ((hframe g hg.1).append_right _)
  · intro g hg
    have hg := s.lastUsed.mem_keys_erase.mp hg
    exact (hvalid.noBuddies g hg.2).mono fun x hx => (hframe g hg.1).mem_iff.mp hx
  · intro g hg
    by_cases hgg : g = gpu
    · subst hgg
      refine ⟨?_, hliveOn⟩
      apply eq_nil_iff_forall_not_mem.mpr
      intro x hx
      -- Every queue of the GPU has been taken out.
      have hqueue := (mem_queue_of_free hsorted hx).1
      rw [Pools.queue, hget] at hqueue
      split_ifs at hqueue with hmem
      · cases hqueue
      · have hnone : s.pools.get? (g, x.level) = none := by
          rw [Dict.get?_eq_none]
          intro hkey
          exact hmem (mem_filter.mpr ⟨hkey, by simp⟩)
        rw [hnone] at hqueue
        cases hqueue
    · have hg' : g ∉ s.lastUsed.keys := fun h => hg (s.lastUsed.mem_keys_erase.mpr ⟨hgg, h⟩)
      obtain ⟨hfree, hlive'⟩ := hvalid.outside g hg'
      refine ⟨?_, hlive'⟩
      apply Perm.eq_nil
      rw [← hfree]
      exact hframe g hgg

theorem markDraining_valid (gpu : Nat) : Valid (markDraining s gpu) := by
  unfold markDraining
  split_ifs
  · exact ⟨hvalid.sorted, hvalid.tile, hvalid.noBuddies, hvalid.outside⟩
  · exact hvalid

theorem valid_join (hgpu : gpu ∉ s.lastUsed.keys) (now : τ) (draining : List Nat) :
    Valid { s with
      pools := s.pools.set (gpu, 1) [⟨gpu, 1, 0⟩], lastUsed := s.lastUsed.set gpu now,
      draining := draining } := by
  obtain ⟨hfree, hlive⟩ := hvalid.outside gpu hgpu
  have hqueue : s.pools.queue gpu 1 = [] := queue_eq_nil_of_free hfree
  have hnew : Pools.free (s.pools.set (gpu, 1) [⟨gpu, 1, 0⟩]) gpu = [⟨gpu, 1, 0⟩] := by
    have h := free_set s.pools gpu 1 [⟨gpu, 1, 0⟩]
    rw [hqueue, hfree, append_nil, nil_append] at h
    exact perm_singleton.mp h
  have hframe : ∀ g, g ≠ gpu →
      (Pools.free (s.pools.set (gpu, 1) [⟨gpu, 1, 0⟩]) g).Perm (s.pools.free g) :=
    fun g hg => free_set_other s.pools hg _ _
  refine ⟨sorted_set hvalid.sorted (by simp), ?_, ?_, ?_⟩
  · intro g hg
    by_cases hgg : g = gpu
    · subst hgg
      change Tile (Pools.free _ g ++ s.liveOn g)
      rw [hnew, hlive]
      exact Tiles.whole wholeGpu
    · have hg' := (s.lastUsed.mem_keys_set.mp hg).resolve_left hgg
      exact (hvalid.tile g hg').perm ((hframe g hgg).append_right _)
  · intro g hg
    by_cases hgg : g = gpu
    · subst hgg
      dsimp only
      rw [hnew]
      intro m hm
      have hlr := (mem_singleton.mp hm.1).trans (mem_singleton.mp hm.2).symm
      have := congrArg Block.index hlr
      dsimp only [Block.left, Block.right] at this
      omega
    · have hg' := (s.lastUsed.mem_keys_set.mp hg).resolve_left hgg
      exact (hvalid.noBuddies g hg').mono fun x hx => (hframe g hgg).mem_iff.mp hx
  · intro g hg
    have hg' : g ≠ gpu ∧ g ∉ s.lastUsed.keys := by
      rw [Dict.mem_keys_set, not_or] at hg
      exact hg
    obtain ⟨hfree', hlive'⟩ := hvalid.outside g hg'.2
    have hempty := hframe g hg'.1
    rw [hfree'] at hempty
    exact ⟨hempty.eq_nil, hlive'⟩

end

section Runs

variable [Zero τ]

variable {s : SlotsState τ}

theorem add_valid (hvalid : Valid s) (gpu : Nat) : Valid (add s gpu).1 := by
  unfold add
  split_ifs with hinited hgpu
  · exact hvalid
  · exact hvalid
  · exact valid_join hvalid hgpu 0 _

theorem set_eq_self {κ α : Type} [DecidableEq κ] {d : Dict κ α} {k : κ} {v : α}
    (h : d.get? k = some v) : d.set k v = d := by
  have hassign : ∀ l : List (κ × α), lookup k l = some v → assign k v l = l := by
    intro l
    induction l with
    | nil => exact fun h => by cases h
    | cons p rest ih =>
      intro h
      by_cases hp : p.1 = k
      · subst hp
        simp only [lookup, if_true, Option.some.injEq] at h
        simp [assign, ← h]
      · simp only [lookup, hp, if_false] at h
        simp [assign, hp, ih h]
  obtain ⟨entries, nodup⟩ := d
  simp only [Dict.set, Dict.mk.injEq]
  exact hassign entries h

variable (gpuIds : List Nat)

theorem init_valid : Valid (init (uninitialised : SlotsState τ) gpuIds).1 := by
  have hloop : ∀ (gpus : List Nat) (r : Pools × Dict Nat τ),
      Valid (⟨true, r.1, [], r.2, [], []⟩ : SlotsState τ) →
      (∀ g ∈ r.2.keys, r.1.get? (g, 1) = some [⟨g, 1, 0⟩] ∧ r.2.get? g = some 0) →
      Valid (⟨true, (initGpus gpus r).1, [], (initGpus gpus r).2, [], []⟩ : SlotsState τ) := by
    intro gpus
    induction gpus with
    | nil => exact fun r hvalid _ => hvalid
    | cons g gpus ih =>
      intro r hvalid hwhole
      rw [initGpus]
      by_cases hg : g ∈ r.2.keys
      · -- A GPU that is named twice is set to what it has.
        obtain ⟨hpool, hlast⟩ := hwhole g hg
        rw [set_eq_self hpool, set_eq_self hlast]
        exact ih r hvalid hwhole
      · apply ih _ (valid_join hvalid hg 0 [])
        intro g' hg'
        rcases r.2.mem_keys_set.mp hg' with rfl | hold
        · exact ⟨Dict.get?_set_self _ _ _, Dict.get?_set_self _ _ _⟩
        · have hne : g' ≠ g := fun h => hg (h ▸ hold)
          rw [Dict.get?_set_ne _ (by simpa using hne), Dict.get?_set_ne _ hne]
          exact hwhole g' hold
  apply hloop gpuIds
  · refine ⟨?_, ?_, ?_, ?_⟩
    · intro g level x hx
      cases hx
    · intro g hg
      cases hg
    · intro g hg
      cases hg
    · exact fun g _ => ⟨rfl, rfl⟩
  · intro g hg
    cases hg

variable [LinearOrder τ]

theorem step_valid (hvalid : Valid s) (call : Call τ) : Valid (step s call) := by
  cases call with
  | allocate me => exact allocate_valid hvalid me
  | wakeUp me => exact wakeUp_valid hvalid me
  | tryAllocate level gpu => exact tryAllocate_valid hvalid level gpu
  | deallocate slot now => exact deallocate_valid hvalid slot now
  | add gpu => exact add_valid hvalid gpu
  | pop gpu => exact pop_valid hvalid gpu
  | markDraining gpu => exact markDraining_valid hvalid gpu

/-- The invariant holds after every sequence of calls. -/
theorem run_valid (calls : List (Call τ)) : Valid (run gpuIds calls) := by
  unfold run
  have hfold : ∀ (calls : List (Call τ)) (s : SlotsState τ), Valid s → Valid (calls.foldl step s) := by
    intro calls
    induction calls with
    | nil => exact fun s hvalid => hvalid
    | cons call calls ih => exact fun s hvalid => ih _ (step_valid hvalid call)
  exact hfold calls _ (init_valid gpuIds)

/-- No call closes the pool. -/
theorem step_inited (hinited : s.inited = true) (call : Call τ) : (step s call).inited = true := by
  have hattempt : ∀ (s : SlotsState τ) (me : Waiter), (attempt s me).1.inited = s.inited := by
    intro s me
    unfold attempt
    split_ifs
    · split <;> rfl
    · rfl
  cases call with
  | allocate me =>
    simp only [step, allocate]
    split_ifs
    · exact hinited
    · exact hinited
    · rw [hattempt]
      exact hinited
  | wakeUp me =>
    simp only [step, wakeUp]
    split_ifs
    · rw [hattempt]
      exact hinited
    · exact hinited
  | tryAllocate level gpu =>
    simp only [step, tryAllocate]
    split_ifs
    · exact hinited
    · exact hinited
    · split <;> exact hinited
  | deallocate slot now =>
    simp only [step, deallocate]
    split_ifs <;> exact hinited
  | add gpu =>
    simp only [step, add]
    split_ifs <;> exact hinited
  | pop gpu =>
    simp only [step, pop]
    split_ifs <;> exact hinited
  | markDraining gpu =>
    simp only [step, markDraining]
    split_ifs <;> exact hinited

theorem run_inited (calls : List (Call τ)) : (run gpuIds calls).inited = true := by
  unfold run
  have hfold : ∀ (calls : List (Call τ)) (s : SlotsState τ), s.inited = true →
      (calls.foldl step s).inited = true := by
    intro calls
    induction calls with
    | nil => exact fun s hinited => hinited
    | cons call calls ih => exact fun s hinited => ih _ (step_inited hinited call)
  exact hfold calls _ rfl

end Runs

/-! ## The allocator -/

theorem queue_whole (hvalid : Valid s) (hgpu : gpu ∈ s.lastUsed.keys) (hlive : s.liveOn gpu = []) :
    (s.pools.queue gpu 1).length = 1 := by
  have hfree := free_eq_whole hvalid hgpu hlive
  have hmem : ⟨gpu, 1, 0⟩ ∈ s.pools.queue gpu 1 :=
    (mem_queue_of_free hvalid.sorted (by rw [hfree]; exact mem_singleton_self _)).1
  obtain ⟨rest, hqueue⟩ := exists_cons_of_ne_nil (ne_nil_of_mem hmem)
  obtain ⟨tail, hqueue⟩ := hqueue
  -- What is behind the first slot of the queue would be free too.
  have hperm := free_popleft hqueue
  rw [hfree] at hperm
  have hrest : Pools.free (s.pools.set (gpu, 1) tail) gpu = [] := by
    have hlength := hperm.length_eq
    simp only [length_cons, length_nil, zero_add] at hlength
    exact length_eq_zero_iff.mp (by omega)
  have htail : tail = [] := by
    apply eq_nil_iff_forall_not_mem.mpr
    intro x hx
    have hx' : x ∈ Pools.queue (s.pools.set (gpu, 1) tail) gpu 1 := by
      rw [queue_set, if_pos ⟨rfl, rfl⟩]
      exact hx
    have := mem_free_of_queue hx'
    rw [hrest] at this
    cases this
  rw [hqueue, htail]
  rfl

theorem pop_ok (hvalid : Valid s) (hinited : s.inited = true) (hgpu : gpu ∈ s.lastUsed.keys)
    (hlive : s.liveOn gpu = []) : (pop s gpu).2 = .ok () := by
  have hnone : ¬ (s.live.any fun x => decide (x.gpuId = gpu)) = true := by
    rw [any_eq_true]
    rintro ⟨x, hx, hxgpu⟩
    exact filter_eq_nil_iff.mp hlive x hx hxgpu
  unfold pop
  rw [if_neg (by simp [hinited]), if_neg hnone,
    if_neg (not_not.mpr (queue_whole hvalid hgpu hlive))]
  dsimp only
  rw [if_pos (popQueues_idle hvalid hgpu hlive).1]

theorem remove_ok (hvalid : Valid s) (hinited : s.inited = true) (hlive : s.live = []) :
    (remove s).2 = .ok () := by
  have hliveOn : ∀ g, s.liveOn g = [] := by
    intro g
    rw [SlotsState.liveOn, hlive]
    rfl
  have hroots : ¬ (s.lastUsed.keys.any fun g => decide ((s.pools.queue g 1).length ≠ 1)) = true := by
    rw [any_eq_true]
    rintro ⟨g, hg, hroot⟩
    exact of_decide_eq_true hroot (queue_whole hvalid hg (hliveOn g))
  have hempty : ¬ (s.pools.entries.any fun p => decide (p.1.2 ≠ 1 ∧ p.2 ≠ [])) = true := by
    rw [any_eq_true]
    rintro ⟨⟨⟨g, level⟩, q⟩, hp, hcond⟩
    obtain ⟨hlevel, hq⟩ := of_decide_eq_true hcond
    have hqueue : s.pools.queue g level = q := by
      rw [Pools.queue, (Dict.get?_eq_some s.pools).mpr hp]
      rfl
    apply hq
    rw [← hqueue]
    by_cases hg : g ∈ s.lastUsed.keys
    · exact queue_eq_nil hvalid hg (hliveOn g) hlevel
    · exact queue_eq_nil_of_free (hvalid.outside g hg).1
  unfold remove
  rw [if_neg (by simp [hinited]), if_neg (by simp [hlive]), if_neg hroots, if_neg hempty]

theorem deallocate_whole (hvalid : Valid s) (now : τ) (hslot : slot ∈ s.live)
    (hlast : (deallocate s slot now).1.liveOn slot.gpuId = []) :
    (deallocate s slot now).1.pools.free slot.gpuId = [⟨slot.gpuId, 1, 0⟩] := by
  apply free_eq_whole (deallocate_valid hvalid slot now) _ hlast
  have hon : slot ∈ s.liveOn slot.gpuId := by simpa [SlotsState.liveOn] using hslot
  have hgpu : slot.gpuId ∈ s.lastUsed.keys := by
    by_contra hnot
    rw [(hvalid.outside _ hnot).2] at hon
    cases hon
  unfold deallocate
  split_ifs
  · exact hgpu
  · dsimp only
    split_ifs
    · exact s.lastUsed.mem_keys_set.mpr (.inr hgpu)
    · exact hgpu

section Allocator

variable [LinearOrder τ]

/-- No GPU that is in use has a free slot of a level or a larger one. -/
def Exhausted (s : SlotsState τ) (level : Nat) : Prop :=
  ∀ g ∈ s.lastUsed.keys, g ∉ s.draining → ∀ x ∈ s.pools.free g, level < x.level

/-- A slot may be handed out for a level. -/
def Offered (s : SlotsState τ) (level : Nat) (slot : Slot) : Prop :=
  slot.level = level ∧ slot.gpuId ∈ s.lastUsed.keys ∧ slot.gpuId ∉ s.draining

/-- What the pool of slots promises in a state. -/
structure BuddyAllocator (s : SlotsState τ) : Prop where
  within : ∀ g ∈ s.lastUsed.keys, ∀ x ∈ s.pools.free g ++ s.liveOn g, x.block.interval ⊆ Set.Ico 0 1
  disjoint : ∀ g ∈ s.lastUsed.keys, (s.pools.free g ++ s.liveOn g).Pairwise
    fun x y => Disjoint x.block.interval y.block.interval
  shares : ∀ g ∈ s.lastUsed.keys,
    ((s.pools.free g ++ s.liveOn g).map fun x => Block.share x.level).sum = 1
  noBuddies : ∀ g ∈ s.lastUsed.keys, NoBuddies (s.pools.free g)
  tryFails : ∀ level, (tryAllocate s level none).2 = .ok none → Exhausted s level
  firstWaits : ∀ me, me.gpu = none → s.waiters = [] →
    (allocate s me).2 = .ok none → Exhausted s me.level
  headWaits : ∀ me, me.gpu = none → s.waiters.head? = some me →
    (wakeUp s me).2 = .ok none → Exhausted s me.level
  tryOffers : ∀ level gpu slot, (tryAllocate s level gpu).2 = .ok (some slot) → Offered s level slot
  allocateOffers : ∀ me slot, (allocate s me).2 = .ok (some slot) → Offered s me.level slot
  wakeUpOffers : ∀ me slot, (wakeUp s me).2 = .ok (some slot) → Offered s me.level slot
  lastFreed : ∀ slot now, slot ∈ s.live → (deallocate s slot now).1.liveOn slot.gpuId = [] →
    (deallocate s slot now).1.pools.free slot.gpuId = [⟨slot.gpuId, 1, 0⟩]
  removable : s.live = [] → (remove s).2 = .ok ()
  poppable : ∀ g ∈ s.lastUsed.keys, s.liveOn g = [] → (pop s g).2 = .ok ()

variable {s : SlotsState τ} {me : Waiter}

theorem attempt_offers (hvalid : Valid s) {slot : Slot} (h : (attempt s me).2 = some slot) :
    Offered s me.level slot := by
  unfold attempt at h
  split_ifs at h
  · split at h
    · rename_i slot' pools hfound
      cases h
      obtain ⟨g, hg, hdraining, -, htaken⟩ := tryAllocateIn_some hvalid hfound
      obtain rfl := htaken.onGpu
      exact ⟨htaken.ofLevel, hg, hdraining⟩
    · cases h

theorem attempt_waits (hvalid : Valid s) (hgpu : me.gpu = none) (hhead : s.waiters.head? = some me)
    (h : (attempt s me).2 = none) : Exhausted s me.level := by
  unfold attempt at h
  rw [if_pos hhead, hgpu] at h
  split at h
  · cases h
  · rename_i hfound
    exact tryAllocateIn_none hvalid hfound

theorem tryAllocate_waits (hvalid : Valid s) {level : Nat}
    (h : (tryAllocate s level none).2 = .ok none) : Exhausted s level := by
  unfold tryAllocate at h
  split_ifs at h
  split at h
  · cases h
  · rename_i hfound
    exact tryAllocateIn_none hvalid hfound

theorem tryAllocate_offers (hvalid : Valid s) {level : Nat} {gpu : Option Nat} {slot : Slot}
    (h : (tryAllocate s level gpu).2 = .ok (some slot)) : Offered s level slot := by
  unfold tryAllocate at h
  split_ifs at h
  split at h
  · rename_i slot' pools hfound
    cases h
    obtain ⟨g, hg, hdraining, -, htaken⟩ := tryAllocateIn_some hvalid hfound
    obtain rfl := htaken.onGpu
    exact ⟨htaken.ofLevel, hg, hdraining⟩
  · cases h

theorem allocate_attempt {r : Option Slot} (h : (allocate s me).2 = .ok r) :
    (attempt { s with waiters := s.waiters ++ [me] } me).2 = r := by
  unfold allocate at h
  split_ifs at h
  exact Except.ok.inj h

/-- What the invariant is for. -/
theorem buddyAllocator_of_valid (hvalid : Valid s) (hinited : s.inited = true) :
    BuddyAllocator s where
  within := by
    intro g hg x hx
    have h := Tiles.interval_subset (hvalid.tile g hg) x.block (mem_map_of_mem hx)
    simpa [wholeGpu, Block.interval, Block.share_one] using h
  disjoint := by
    intro g hg
    have h := Tiles.pairwise_disjoint (hvalid.tile g hg)
    rw [pairwise_map] at h
    exact h
  shares := by
    intro g hg
    have h := Tiles.sum_share (hvalid.tile g hg)
    rw [map_map] at h
    exact h.trans Block.share_one
  noBuddies := hvalid.noBuddies
  tryFails := fun _ h => tryAllocate_waits hvalid h
  firstWaits := by
    intro me hgpu hwaiters h
    have hhead : (s.waiters ++ [me]).head? = some me := by
      rw [hwaiters]
      rfl
    exact attempt_waits (s := { s with waiters := s.waiters ++ [me] }) (hvalid.withWaiters _) hgpu hhead
      (allocate_attempt h)
  headWaits := by
    intro me hgpu hhead h
    unfold wakeUp at h
    rw [if_pos (mem_of_mem_head? hhead)] at h
    exact attempt_waits hvalid hgpu hhead (Except.ok.inj h)
  tryOffers := fun _ _ _ h => tryAllocate_offers hvalid h
  allocateOffers := by
    intro me slot h
    exact attempt_offers (hvalid.withWaiters (s.waiters ++ [me])) (allocate_attempt h)
  wakeUpOffers := by
    intro me slot h
    unfold wakeUp at h
    split_ifs at h
    · exact attempt_offers hvalid (Except.ok.inj h)
    · cases h
  lastFreed := fun _ now hslot hlast => deallocate_whole hvalid now hslot hlast
  removable := remove_ok hvalid hinited
  poppable := fun _ hg hlive => pop_ok hvalid hinited hg hlive

variable [Zero τ]

/-- After every sequence of calls the pool is a buddy allocator.  A request that is not pinned to a
GPU fails only when no GPU in use has a slot for it, and so waits one that is at the head of the
queue; one behind others waits for its turn. -/
theorem slots_buddy_allocator (gpuIds : List Nat) (calls : List (Call τ)) :
    BuddyAllocator (run gpuIds calls) :=
  buddyAllocator_of_valid (run_valid gpuIds calls) (run_inited gpuIds calls)

/-- A request waits behind one that is pinned to a GPU in use, while another GPU is whole. -/
theorem allocate_waits_behind_pinned :
    ¬ ∀ (gpuIds : List Nat) (calls : List (Call Nat)) (me : Waiter), me.gpu = none →
      (allocate (run gpuIds calls) me).2 = .ok none → Exhausted (run gpuIds calls) me.level := by
  intro h
  have hex := h [0, 1] [.tryAllocate 1 (some 0), .allocate ⟨1, 1, some 0⟩] ⟨2, 1, none⟩ rfl rfl
  exact absurd (hex 1 (by decide) (by decide) ⟨1, 1, 0⟩ (by decide)) (by decide)

end Allocator

end Invariant

end ArcticPlatform.SemiPersistence
