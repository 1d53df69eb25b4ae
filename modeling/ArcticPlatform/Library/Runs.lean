import Mathlib.Tactic.SplitIfs

/-!
# Runs of a transition system

A system is a function that gives the next state for an action, where the action is enabled.  A run
takes actions that meet a condition on the state before them.

Main results:

- Theorem `Reaches.invariant`: what the start has and every step of a run keeps holds in every
  state that is reached.
- Theorem `reaches_of_execute`: a list of actions that can be executed is a run.
- Theorem `eachTime_snoc`: how a property of every event of a history is kept.
-/

namespace Runs

variable {σ α : Type}

/-- The states that are reached from a start by actions that meet a condition. -/
inductive Reaches (step : σ → α → Option σ) (ok : σ → α → Prop) (start : σ) : σ → Prop
  | start : Reaches step ok start start
  | next {s s' : σ} {a : α} (hs : Reaches step ok start s) (hok : ok s a)
      (hstep : step s a = some s') : Reaches step ok start s'

/-- Every action meets the condition. -/
def Always (_ : σ) (_ : α) : Prop := True

instance (s : σ) (a : α) : Decidable (Always s a) := inferInstanceAs (Decidable True)

variable {step : σ → α → Option σ} {ok : σ → α → Prop} {start : σ}

variable {s : σ}

/-- The rule of invariants. -/
theorem Reaches.invariant {I : σ → Prop} (hs : Reaches step ok start s) (hstart : I start)
    (hnext : ∀ s a s', I s → ok s a → step s a = some s' → I s') : I s := by
  induction hs with
  | start => exact hstart
  | next _ hok hstep ih => exact hnext _ _ _ ih hok hstep

theorem Reaches.mono {ok' : σ → α → Prop} (hs : Reaches step ok start s)
    (himp : ∀ s a, ok s a → ok' s a) : Reaches step ok' start s := by
  induction hs with
  | start => exact .start
  | next _ hok hstep ih => exact .next ih (himp _ _ hok) hstep

theorem Reaches.always (hs : Reaches step ok start s) : Reaches step Always start s :=
  hs.mono fun _ _ _ => trivial

/-- Execute actions one after the other, as long as they are enabled and meet the condition. -/
def execute (step : σ → α → Option σ) (ok : σ → α → Prop) [∀ s a, Decidable (ok s a)] :
    σ → List α → Option σ
  | s, [] => some s
  | s, a :: as => if ok s a then (step s a).bind fun s' => execute step ok s' as else none

variable (acts : List α)

theorem reaches_execute [∀ s a, Decidable (ok s a)] {s s' : σ} (hs : Reaches step ok start s)
    (h : execute step ok s acts = some s') : Reaches step ok start s' := by
  induction acts generalizing s with
  | nil =>
    cases h
    exact hs
  | cons a as ih =>
    rw [execute] at h
    split_ifs at h with hok
    obtain ⟨t, ht, hrest⟩ := Option.bind_eq_some_iff.mp h
    exact ih (.next hs hok ht) hrest

/-- A list of actions that can be executed is a run. -/
theorem reaches_of_execute [∀ s a, Decidable (ok s a)] (h : execute step ok start acts = some s) :
    Reaches step ok start s := reaches_execute acts .start h

/-- A list of actions that can be executed reaches a state with what its last state has. -/
theorem exists_reaches [∀ s a, Decidable (ok s a)] {P : σ → Prop} [DecidablePred P]
    (h : ((execute step ok start acts).any fun s => decide (P s)) = true) :
    ∃ s, Reaches step ok start s ∧ P s := by
  cases hs : execute step ok start acts with
  | none =>
    rw [hs] at h
    cases h
  | some s =>
    rw [hs] at h
    exact ⟨s, reaches_of_execute acts hs, of_decide_eq_true h⟩

/-! ## Histories -/

/-- Each time an event has happened, the events before it had a property. -/
def EachTime {ε : Type} (P : List ε → ε → Prop) (log : List ε) : Prop :=
  ∀ past e later, log = past ++ e :: later → P past e

variable {ε : Type} {P : List ε → ε → Prop}

theorem eachTime_nil : EachTime P [] := by
  intro past e later h
  simp at h

theorem eachTime_snoc {log : List ε} {e : ε} :
    EachTime P (log ++ [e]) ↔ EachTime P log ∧ P log e := by
  constructor
  · intro h
    refine ⟨?_, h log e [] rfl⟩
    intro past e' later hlog
    exact h past e' (later ++ [e]) (by rw [hlog]; simp)
  · intro h past e' later hlog
    -- The event is the last one or an earlier one.
    rcases List.eq_nil_or_concat later with hlater | ⟨later', last, hlater⟩
    · rw [hlater] at hlog
      obtain ⟨hpast, he⟩ := List.append_inj' hlog rfl
      cases he
      exact hpast ▸ h.2
    · rw [hlater, List.concat_eq_append, ← List.cons_append, ← List.append_assoc] at hlog
      obtain ⟨hpast, -⟩ := List.append_inj' hlog rfl
      exact h.1 past e' later' hpast

end Runs
