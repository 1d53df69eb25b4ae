import Mathlib.Data.List.Forall2

/-!
# Programs of a group

Each member of a group runs a program that issues collective calls: a call returns once all
members have issued it, with an answer made from what they gave to it.

Main results:

- Theorem `Runs.issues`: in a run that ends, every member issues the calls of the group.
- Theorem `Runs.call_map`: a call that all members are at.
-/

namespace GroupPrograms

/-- A program ends with a result, or issues a call and goes on with its answer. -/
inductive Program (C V A R : Type*)
  | finished (result : R)
  | call (kind : C) (value : V) (next : A → Program C V A R)

variable {C V A R : Type*}

/-- A program can issue these calls, and ends with the result. -/
inductive Issues : Program C V A R → List C → R → Prop
  | finished (result : R) : Issues (.finished result) [] result
  | call {kind : C} {value : V} {next : A → Program C V A R} {trace : List C} {result : R} (answer : A)
      (h : Issues (next answer) trace result) : Issues (.call kind value next) (kind :: trace) result

variable {trace : List C}

theorem issues_finished_iff {result r : R} :
    Issues (.finished result : Program C V A R) trace r ↔ trace = [] ∧ r = result := by
  constructor
  · intro h
    cases h
    exact ⟨rfl, rfl⟩
  · rintro ⟨rfl, rfl⟩
    exact .finished r

theorem issues_call_iff {kind : C} {value : V} {next : A → Program C V A R} {r : R} :
    Issues (.call kind value next) trace r ↔
      ∃ answer rest, trace = kind :: rest ∧ Issues (next answer) rest r := by
  constructor
  · intro h
    cases h with
    | call answer h => exact ⟨answer, _, rfl, h⟩
  · rintro ⟨answer, rest, rfl, h⟩
    exact .call answer h

/-- The members meet at every call of `trace`, and all of them end. -/
inductive Runs (answer : C → List V → A) : List (Program C V A R) → List C → List R → Prop
  | finished {programs : List (Program C V A R)} (results : List R)
      (hprograms : programs = results.map .finished) : Runs answer programs [] results
  | call {programs : List (Program C V A R)} {trace : List C} {results : List R} (kind : C)
      (members : List (V × (A → Program C V A R))) (hmembers : members ≠ [])
      (hprograms : programs = members.map fun m => .call kind m.1 m.2)
      (h : Runs answer (members.map fun m => m.2 (answer kind (members.map Prod.fst))) trace results) :
      Runs answer programs (kind :: trace) results

variable {answer : C → List V → A}

/-- Every member issues the calls of the group. -/
theorem Runs.issues {programs : List (Program C V A R)} {results : List R}
    (h : Runs answer programs trace results) :
    List.Forall₂ (fun program result => Issues program trace result) programs results := by
  induction h with
  | finished results hprograms =>
    rw [hprograms, List.forall₂_map_left_iff, List.forall₂_same]
    exact fun result _ => .finished result
  | call kind members _ hprograms _ ih =>
    rw [List.forall₂_map_left_iff] at ih
    rw [hprograms, List.forall₂_map_left_iff]
    exact ih.imp fun m result hm => .call _ hm

/-- A call that all members of a group are at. -/
theorem Runs.call_map {α : Type*} {l : List α} (hl : l ≠ []) (kind : C) (value : α → V)
    (next : α → A → Program C V A R) {results : List R}
    (h : Runs answer (l.map fun a => next a (answer kind (l.map value))) trace results) :
    Runs answer (l.map fun a => .call kind (value a) (next a)) (kind :: trace) results := by
  refine .call kind (l.map fun a => (value a, next a)) (by simpa using hl) ?_ ?_
  · simp [List.map_map, Function.comp_def]
  · simpa [List.map_map, Function.comp_def] using h

theorem Runs.finished_map {α : Type*} (l : List α) (result : α → R) :
    Runs answer (l.map fun a => (.finished (result a) : Program C V A R)) [] (l.map result) :=
  .finished _ (by simp [List.map_map, Function.comp_def])

end GroupPrograms
