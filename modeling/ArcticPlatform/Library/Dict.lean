import Mathlib.Data.List.Basic
import Mathlib.Tactic

/-!
# Dictionaries in insertion order

A dictionary as a list of pairs with distinct keys: assigning to a key that is
present keeps its place, assigning to a new key appends it, and iteration goes in
the order of insertion.

Main results:

- Theorem `get?_set`, `get?_erase`: lookups after an update.
- Theorem `mem_keys`: the keys are what lookups find.
- Theorem `total_set`, `total_erase`: the sum over the values after an update.
- Theorem `read_foldl_entries`: what a loop over the entries does at one key.
-/

namespace Dicts

open List

universe u v

variable {κ : Type u} {α : Type v} [DecidableEq κ]

/-! ## Lists of pairs -/

/-- Value of the first pair with a key. -/
def lookup (k : κ) : List (κ × α) → Option α
  | [] => none
  | p :: rest => if p.1 = k then some p.2 else lookup k rest

/-- Replace the value of the first pair with the key, or append a pair. -/
def assign (k : κ) (v : α) : List (κ × α) → List (κ × α)
  | [] => [(k, v)]
  | p :: rest => if p.1 = k then (k, v) :: rest else p :: assign k v rest

/-- Drop the first pair with the key. -/
def remove (k : κ) : List (κ × α) → List (κ × α)
  | [] => []
  | p :: rest => if p.1 = k then rest else p :: remove k rest

variable {k : κ} {l : List (κ × α)}

theorem lookup_eq_none : lookup k l = none ↔ k ∉ l.map Prod.fst := by
  induction l with
  | nil => simp [lookup]
  | cons p rest ih =>
    by_cases hp : p.1 = k
    · simp [lookup, hp]
    · simp [lookup, hp, ih, Ne.symm hp]

theorem lookup_assign (k k' : κ) (v : α) (l : List (κ × α)) :
    lookup k' (assign k v l) = if k' = k then some v else lookup k' l := by
  induction l with
  | nil =>
    by_cases hk : k' = k
    · simp [assign, lookup, hk]
    · simp [assign, lookup, hk, Ne.symm hk]
  | cons p rest ih =>
    by_cases hp : p.1 = k
    · by_cases hk : k' = k
      · simp [assign, lookup, hp, hk]
      · simp [assign, lookup, hp, hk, Ne.symm hk]
    · by_cases hpk : p.1 = k'
      · simp [assign, lookup, hpk, show k' ≠ k from hpk ▸ hp]
      · simp [assign, lookup, hp, hpk, ih]

theorem keys_assign (k : κ) (v : α) (l : List (κ × α)) :
    (assign k v l).map Prod.fst =
      if k ∈ l.map Prod.fst then l.map Prod.fst else l.map Prod.fst ++ [k] := by
  induction l with
  | nil => simp [assign]
  | cons p rest ih =>
    by_cases hp : p.1 = k
    · simp [assign, hp]
    · simp only [assign, hp, if_false, map_cons, ih, mem_cons, Ne.symm hp, false_or]
      split <;> simp

variable {v : α}

theorem assign_of_not_mem (h : k ∉ l.map Prod.fst) : assign k v l = l ++ [(k, v)] := by
  induction l with
  | nil => rfl
  | cons p rest ih =>
    rw [map_cons, mem_cons, not_or] at h
    rw [assign, if_neg (Ne.symm h.1), ih h.2, cons_append]

theorem assign_of_mem (hnodup : (l.map Prod.fst).Nodup) (h : k ∈ l.map Prod.fst) :
    assign k v l = l.map fun p => if p.1 = k then (k, v) else p := by
  induction l with
  | nil => cases h
  | cons p rest ih =>
    rw [map_cons, nodup_cons] at hnodup
    by_cases hp : p.1 = k
    · have hrest : rest.map (fun p => if p.1 = k then (k, v) else p) = rest := by
        refine (map_congr_left fun q hq => if_neg ?_).trans (map_id _)
        rintro rfl
        exact hnodup.1 (hp ▸ mem_map_of_mem hq)
      rw [assign, map_cons, if_pos hp, if_pos hp, hrest]
    · rw [map_cons, mem_cons, or_iff_right (Ne.symm hp)] at h
      rw [assign, map_cons, if_neg hp, if_neg hp, ih hnodup.2 h]

theorem remove_sublist (k : κ) (l : List (κ × α)) : (remove k l).Sublist l := by
  induction l with
  | nil => exact List.Sublist.refl _
  | cons p rest ih =>
    rw [remove]
    split_ifs
    · exact sublist_cons_self p rest
    · exact ih.cons_cons p

theorem keys_remove (k : κ) (l : List (κ × α)) :
    (remove k l).map Prod.fst = (l.map Prod.fst).erase k := by
  induction l with
  | nil => rfl
  | cons p rest ih =>
    by_cases hp : p.1 = k
    · simp [remove, hp]
    · simp [remove, hp, ih]

theorem lookup_remove (hnodup : (l.map Prod.fst).Nodup) (k k' : κ) :
    lookup k' (remove k l) = if k' = k then none else lookup k' l := by
  induction l with
  | nil => simp [remove, lookup]
  | cons p rest ih =>
    rw [map_cons, nodup_cons] at hnodup
    by_cases hp : p.1 = k
    · subst hp
      by_cases hk : k' = p.1
      · subst hk
        simp [remove, lookup_eq_none, hnodup.1]
      · simp [remove, lookup, hk, Ne.symm hk]
    · by_cases hpk : p.1 = k'
      · simp [remove, lookup, hpk, show k' ≠ k from hpk ▸ hp]
      · simp [remove, lookup, hp, hpk, ih hnodup.2]

theorem lookup_eq_some (hnodup : (l.map Prod.fst).Nodup) : lookup k l = some v ↔ (k, v) ∈ l := by
  induction l with
  | nil => simp [lookup]
  | cons p rest ih =>
    rw [map_cons, nodup_cons] at hnodup
    by_cases hp : p.1 = k
    · subst hp
      have hrest : (p.1, v) ∉ rest := fun hmem =>
        hnodup.1 (mem_map.mpr ⟨(p.1, v), hmem, rfl⟩)
      simp only [lookup, if_true, Option.some.injEq, mem_cons, hrest, or_false]
      constructor
      · rintro rfl
        rfl
      · exact fun h => (congrArg Prod.snd h).symm
    · have hne : (k, v) ≠ p := fun h => hp (congrArg Prod.fst h).symm
      simp [lookup, hp, hne, ih hnodup.2]

/-- Sum of a measure over the values of a list of pairs. -/
def sumOf (f : α → Nat) (l : List (κ × α)) : Nat := (l.map fun p => f p.2).sum

theorem sumOf_assign (f : α → Nat) (k : κ) (v : α) (l : List (κ × α)) :
    sumOf f (assign k v l) + ((lookup k l).map f).getD 0 = sumOf f l + f v := by
  induction l with
  | nil => simp [assign, sumOf, lookup]
  | cons p rest ih =>
    by_cases hp : p.1 = k
    · simp [assign, sumOf, lookup, hp]
      omega
    · simp only [sumOf] at ih
      simp [assign, sumOf, lookup, hp]
      omega

theorem sumOf_remove (f : α → Nat) (k : κ) (l : List (κ × α)) :
    sumOf f (remove k l) + ((lookup k l).map f).getD 0 = sumOf f l := by
  induction l with
  | nil => simp [remove, sumOf, lookup]
  | cons p rest ih =>
    by_cases hp : p.1 = k
    · simp [remove, sumOf, lookup, hp]
      omega
    · simp only [sumOf] at ih
      simp [remove, sumOf, lookup, hp]
      omega

/-- What the pairs of a list make, after an assignment. -/
theorem flatMap_assign {β : Type*} (f : κ × α → List β) (k : κ) (v : α) (l : List (κ × α)) :
    ((assign k v l).flatMap f ++ ((lookup k l).map fun w => f (k, w)).getD []).Perm
      (l.flatMap f ++ f (k, v)) := by
  induction l with
  | nil => simp [assign, lookup]
  | cons p rest ih =>
    by_cases hp : p.1 = k
    · subst hp
      simp only [assign, lookup, if_true, flatMap_cons, Option.map_some, Option.getD_some]
      rw [append_assoc, append_assoc]
      refine perm_append_comm.trans ?_
      rw [append_assoc]
      exact perm_append_comm_assoc _ _ _
    · simp only [assign, lookup, hp, if_false, flatMap_cons, append_assoc]
      exact ih.append_left (f p)

/-- What the pairs of a list make, after a removal. -/
theorem flatMap_remove {β : Type*} (f : κ × α → List β) (k : κ) (l : List (κ × α)) :
    ((remove k l).flatMap f ++ ((lookup k l).map fun w => f (k, w)).getD []).Perm (l.flatMap f) := by
  induction l with
  | nil => simp [remove, lookup]
  | cons p rest ih =>
    by_cases hp : p.1 = k
    · subst hp
      simp only [remove, lookup, if_true, flatMap_cons, Option.map_some, Option.getD_some]
      exact perm_append_comm
    · simp only [remove, lookup, hp, if_false, flatMap_cons, append_assoc]
      exact ih.append_left (f p)

/-! ## Dictionaries -/

/-- A dictionary: pairs in the order of insertion, with distinct keys. -/
structure Dict (κ : Type u) (α : Type v) where
  entries : List (κ × α)
  nodup : (entries.map Prod.fst).Nodup

namespace Dict

/-- The empty dictionary. -/
def empty : Dict κ α := ⟨[], nodup_nil⟩

/-- The keys in the order of insertion. -/
def keys (d : Dict κ α) : List κ := d.entries.map Prod.fst

/-- `d.get(k)`. -/
def get? (d : Dict κ α) (k : κ) : Option α := lookup k d.entries

/-- `d[k] = v`. -/
def set (d : Dict κ α) (k : κ) (v : α) : Dict κ α where
  entries := assign k v d.entries
  nodup := by
    rw [keys_assign]
    split
    · exact d.nodup
    · rename_i hk
      exact nodup_append.mpr ⟨d.nodup, nodup_singleton k, by
        intro a ha b hb hab
        rw [mem_singleton.mp hb] at hab
        exact hk (hab ▸ ha)⟩

/-- `d.pop(k, None)`. -/
def erase (d : Dict κ α) (k : κ) : Dict κ α where
  entries := remove k d.entries
  nodup := by
    rw [keys_remove]
    exact d.nodup.erase k

/-- Drop entries from the oldest on, as long as they meet a condition. -/
def dropWhile (d : Dict κ α) (p : κ × α → Bool) : Dict κ α where
  entries := d.entries.dropWhile p
  nodup := d.nodup.sublist ((dropWhile_sublist p).map Prod.fst)

/-- Sum of a measure over the values. -/
def total (d : Dict κ α) (f : α → Nat) : Nat := sumOf f d.entries

variable (d : Dict κ α)

@[simp] theorem get?_empty (k : κ) : (empty : Dict κ α).get? k = none := rfl

omit [DecidableEq κ] in
@[simp] theorem keys_empty : (empty : Dict κ α).keys = [] := rfl

variable (f : α → Nat)

omit [DecidableEq κ] in
@[simp] theorem total_empty : (empty : Dict κ α).total f = 0 := rfl

/-- The value under a key after an assignment. -/
theorem get?_set (k k' : κ) (v : α) : (d.set k v).get? k' = if k' = k then some v else d.get? k' :=
  lookup_assign k k' v d.entries

@[simp] theorem get?_set_self (k : κ) (v : α) : (d.set k v).get? k = some v := by
  simp [get?_set]

variable {k k' : κ}

@[simp] theorem get?_set_ne (h : k' ≠ k) (v : α) : (d.set k v).get? k' = d.get? k' := by
  simp [get?_set, h]

/-- The value under a key after a removal. -/
theorem get?_erase (k k' : κ) : (d.erase k).get? k' = if k' = k then none else d.get? k' :=
  lookup_remove d.nodup k k'

@[simp] theorem get?_erase_self (k : κ) : (d.erase k).get? k = none := by
  simp [get?_erase]

@[simp] theorem get?_erase_ne (h : k' ≠ k) : (d.erase k).get? k' = d.get? k' := by
  simp [get?_erase, h]

theorem get?_eq_some {k : κ} {v : α} : d.get? k = some v ↔ (k, v) ∈ d.entries :=
  lookup_eq_some d.nodup

theorem get?_eq_none {k : κ} : d.get? k = none ↔ k ∉ d.keys := lookup_eq_none

/-- The keys are what lookups find. -/
theorem mem_keys {k : κ} : k ∈ d.keys ↔ (d.get? k).isSome := by
  rw [← not_iff_not, ← get?_eq_none, Option.not_isSome_iff_eq_none]

omit [DecidableEq κ] in
theorem keys_nodup : d.keys.Nodup := d.nodup

theorem keys_set (k : κ) (v : α) :
    (d.set k v).keys = if k ∈ d.keys then d.keys else d.keys ++ [k] := keys_assign k v d.entries

theorem keys_erase (k : κ) : (d.erase k).keys = d.keys.erase k := keys_remove k d.entries

theorem mem_keys_set {v : α} : k' ∈ (d.set k v).keys ↔ k' = k ∨ k' ∈ d.keys := by
  rw [mem_keys, mem_keys, get?_set]
  split <;> simp_all

theorem mem_keys_erase : k' ∈ (d.erase k).keys ↔ k' ≠ k ∧ k' ∈ d.keys := by
  rw [mem_keys, mem_keys, get?_erase]
  split <;> simp_all

/-- The new size takes the place of the old one. -/
theorem total_set (k : κ) (v : α) :
    (d.set k v).total f + ((d.get? k).map f).getD 0 = d.total f + f v :=
  sumOf_assign f k v d.entries

theorem total_erase (k : κ) : (d.erase k).total f + ((d.get? k).map f).getD 0 = d.total f :=
  sumOf_remove f k d.entries

theorem flatMap_set {β : Type*} (f : κ × α → List β) (k : κ) (v : α) :
    ((d.set k v).entries.flatMap f ++ ((d.get? k).map fun w => f (k, w)).getD []).Perm
      (d.entries.flatMap f ++ f (k, v)) := flatMap_assign f k v d.entries

theorem flatMap_erase {β : Type*} (f : κ × α → List β) (k : κ) :
    ((d.erase k).entries.flatMap f ++ ((d.get? k).map fun w => f (k, w)).getD []).Perm
      (d.entries.flatMap f) := flatMap_remove f k d.entries

/-- Pop keys one after the other. -/
def eraseAll (d : Dict κ α) (ks : List κ) : Dict κ α := ks.foldl erase d

theorem get?_eraseAll (ks : List κ) (k : κ) :
    (d.eraseAll ks).get? k = if k ∈ ks then none else d.get? k := by
  induction ks generalizing d with
  | nil => simp [eraseAll]
  | cons k' ks ih =>
    have hrest : (d.eraseAll (k' :: ks)).get? k = ((d.erase k').eraseAll ks).get? k := rfl
    rw [hrest, ih, get?_erase]
    by_cases hk : k = k'
    · simp [hk]
    · simp [hk]

omit [DecidableEq κ] in
theorem length_keys : d.keys.length = d.entries.length := length_map _

theorem erase_of_get?_eq_none {k : κ} (h : d.get? k = none) : d.erase k = d := by
  have hsame : (d.erase k).entries = d.entries := by
    refine (remove_sublist k d.entries).eq_of_length ?_
    have hkeys := congrArg List.length (d.keys_erase k)
    rwa [erase_of_not_mem (d.get?_eq_none.mp h), length_keys, length_keys] at hkeys
  obtain ⟨entries, nodup⟩ := d
  exact Dict.mk.injEq _ _ _ _ ▸ hsame

/-- Distinct keys that are present make room, one each. -/
theorem length_eraseAll {ks : List κ} (hnodup : ks.Nodup) (hks : ∀ k ∈ ks, k ∈ d.keys) :
    (d.eraseAll ks).entries.length + ks.length = d.entries.length := by
  induction ks generalizing d with
  | nil => rfl
  | cons k ks ih =>
    obtain ⟨hk, hnodup⟩ := nodup_cons.mp hnodup
    have hrest := ih (d.erase k) hnodup fun k' hk' =>
      (d.mem_keys_erase).mpr ⟨fun heq => hk (heq ▸ hk'), hks k' (mem_cons_of_mem _ hk')⟩
    have hlength : (d.erase k).keys.length = d.keys.length - 1 := by
      rw [keys_erase, length_erase_of_mem (hks k mem_cons_self)]
    have hpos : 0 < d.keys.length := length_pos_of_mem (hks k mem_cons_self)
    have hrun : d.eraseAll (k :: ks) = (d.erase k).eraseAll ks := rfl
    rw [hrun, length_cons]
    rw [length_keys, length_keys] at hlength
    rw [length_keys] at hpos
    omega

/-! ## Loops over the items -/

section Loops

variable {β : Type v} {ε : Type u}

omit [DecidableEq κ] in
/-- The same keys with other values. -/
def mapValues (f : κ → α → β) : Dict κ β where
  entries := d.entries.map fun p => (p.1, f p.1 p.2)
  nodup := by
    rw [map_map]
    exact d.nodup

theorem get?_mapValues (f : κ → α → β) (k : κ) : (d.mapValues f).get? k = (d.get? k).map (f k) := by
  have hlookup : ∀ l : List (κ × α),
      lookup k (l.map fun p => (p.1, f p.1 p.2)) = (lookup k l).map (f k) := by
    intro l
    induction l with
    | nil => rfl
    | cons p rest ih =>
      by_cases hp : p.1 = k
      · subst hp
        simp [lookup]
      · simp [lookup, hp, ih]
  exact hlookup d.entries

/-- What is read for one key from a state that a loop over the entries changes, where the other
entries do not change it. -/
theorem read_foldl_entries {σ γ : Type*} (step : σ → κ × α → σ) (read : σ → γ)
    {g : α → γ → γ} (k : κ) (hother : ∀ s p, p.1 ≠ k → read (step s p) = read s)
    (hself : ∀ s v, read (step s (k, v)) = g v (read s)) (s : σ) :
    read (d.entries.foldl step s) = (d.get? k).elim (read s) fun v => g v (read s) := by
  have hkeep : ∀ (l : List (κ × α)) (s : σ), k ∉ l.map Prod.fst →
      read (l.foldl step s) = read s := by
    intro l
    induction l with
    | nil => exact fun s _ => rfl
    | cons p rest ih =>
      intro s hk
      rw [map_cons, mem_cons, not_or] at hk
      rw [foldl_cons, ih _ hk.2, hother s p (Ne.symm hk.1)]
  have hloop : ∀ (l : List (κ × α)) (s : σ), (l.map Prod.fst).Nodup →
      read (l.foldl step s) = (lookup k l).elim (read s) fun v => g v (read s) := by
    intro l
    induction l with
    | nil => exact fun s _ => rfl
    | cons p rest ih =>
      intro s hnodup
      rw [map_cons, nodup_cons] at hnodup
      rw [foldl_cons]
      by_cases hp : p.1 = k
      · subst hp
        rw [hkeep rest _ hnodup.1]
        simp [lookup, hself s p.2]
      · rw [ih _ hnodup.2, hother s p hp]
        simp [lookup, hp]
  exact hloop d.entries s d.nodup

end Loops

end Dict
end Dicts
