import Mathlib.Data.List.Forall2

/-!
# Coalesced sequences

A queue that may fold an arriving item into the item before it shows its reader
a coarser sequence than the one it was given.  `Coalesced` is the relation
between the two for a partial operation that joins neighbours; the arriving
item is always the last one.

Main results:

- Theorem `Coalesced.exists_runs`: the given sequence splits into runs, one
  for each item that is shown, whatever a join preserves.
- Theorem `Coalesced.snoc_inv`: an item that cannot be joined to another
  stays an item of its own.
-/

namespace Coalescing

open List

variable {α : Type*}

/-- `shown` is `given` with some arriving items folded into the item before them. -/
inductive Coalesced (join : α → α → Option α) : (given shown : List α) → Prop where
  | nil : Coalesced join [] []
  | keep {given shown : List α} (a : α) (h : Coalesced join given shown) :
      Coalesced join (given ++ [a]) (shown ++ [a])
  | fold {given shown : List α} {a b ab : α} (h : Coalesced join given (shown ++ [a]))
      (hjoin : join a b = some ab) : Coalesced join (given ++ [b]) (shown ++ [ab])

namespace Coalesced

variable {join : α → α → Option α} {given shown : List α}

/-- The given items split into runs of which each shown item carries one: a relation between runs
and items that holds of single items and that a join extends. -/
theorem exists_runs {Carries : List α → α → Prop} (hone : ∀ a, Carries [a] a)
    (hmore : ∀ run a b ab, Carries run a → join a b = some ab → Carries (run ++ [b]) ab)
    (h : Coalesced join given shown) :
    ∃ runs : List (List α), runs.flatten = given ∧ Forall₂ Carries runs shown := by
  induction h with
  | nil => exact ⟨[], rfl, Forall₂.nil⟩
  | keep a _ ih =>
    obtain ⟨runs, hflatten, hruns⟩ := ih
    refine ⟨runs ++ [[a]], ?_, ?_⟩
    · rw [flatten_append, hflatten]
      rfl
    · exact rel_append hruns (Forall₂.cons (hone a) Forall₂.nil)
  | @fold given shown a b ab _ hjoin ih =>
    obtain ⟨runs, hflatten, hruns⟩ := ih
    -- The last run belongs to the item that the arriving one was folded into.
    have hfront := forall₂_take_append runs shown [a] hruns
    have hlast := forall₂_drop_append runs shown [a] hruns
    generalize hrest : runs.drop shown.length = rest at hlast
    cases hlast with
    | @cons run _ _ _ hrun hnil =>
      cases hnil with
      | nil =>
        have hruns : runs = runs.take shown.length ++ [run] := by
          rw [← hrest, take_append_drop]
        refine ⟨runs.take shown.length ++ [run ++ [b]], ?_, ?_⟩
        · rw [hruns, flatten_append] at hflatten
          rw [← hflatten]
          simp
        · apply rel_append hfront
          exact Forall₂.cons (hmore run a b ab hrun hjoin) Forall₂.nil

theorem forall_mem {P : α → Prop} (hmore : ∀ a b ab, P a → join a b = some ab → P ab)
    (h : Coalesced join given shown) (hgiven : ∀ a ∈ given, P a) : ∀ a ∈ shown, P a := by
  induction h with
  | nil => exact hgiven
  | keep a _ ih =>
    simp only [mem_append, mem_singleton] at hgiven ⊢
    rintro x (hx | rfl)
    · exact ih (fun y hy => hgiven y (.inl hy)) x hx
    · exact hgiven x (.inr rfl)
  | @fold given shown a b ab _ hjoin ih =>
    simp only [mem_append, mem_singleton] at hgiven ih ⊢
    have hshown := ih (fun y hy => hgiven y (.inl hy))
    rintro x (hx | rfl)
    · exact hshown x (.inl hx)
    · exact hmore a b x (hshown a (.inr rfl)) hjoin

/-- An item that joins to nothing before it is shown as it is. -/
theorem snoc_inv {a : α} (halone : ∀ x, join x a = none) (h : Coalesced join (given ++ [a]) shown) :
    ∃ shown', shown = shown' ++ [a] ∧ Coalesced join given shown' := by
  generalize hlist : given ++ [a] = l at h
  cases h with
  | nil => simp at hlist
  | @keep given' shown' a' h =>
    obtain ⟨hgiven, ha⟩ := append_inj' hlist rfl
    cases ha
    subst hgiven
    exact ⟨shown', rfl, h⟩
  | @fold given' shown' x b ab h hjoin =>
    obtain ⟨hgiven, ha⟩ := append_inj' hlist rfl
    cases ha
    rw [halone x] at hjoin
    cases hjoin

end Coalesced
end Coalescing
