import ArcticPlatform.Streaming.Acknowledgements

/-!
# Streaming: from the producer to the reader

What a client hands over of a choice, against what was put for it in the engine.

Main results:

- Theorem `Stream.Carried.put`, `Stream.Carried.nextBatch`: what the two ends of the buffer keep,
  also behind a failure.
- Theorem `handed_over_carries`: what is handed over of each choice in every run.
-/

namespace ArcticPlatform.Streaming

open Coalescing List

namespace Stream

/-- What left the buffer carries what was put, but for what may still come or was lost in a failure. -/
structure Carried (s : Stream) : Prop where
  inv : s.buffer.error = none → s.Inv
  coalesced : ∃ rest, ∀ c, Coalesced Event.join (ofChoice c s.accepted)
    (ofChoice c (s.popped ++ rest))
  handed : s.delivered.map Prod.snd <+: s.popped

variable {s : Stream}

theorem Inv.carried (h : s.Inv) : s.Carried := ⟨fun _ => h, ⟨_, h.coalesced⟩, h.handed⟩

theorem Carried.put (h : s.Carried) (event : Event) : (s.step (.put event)).Carried := by
  by_cases herror : s.buffer.error = none
  · exact (inv_put (h.inv herror) event).carried
  · obtain ⟨rest, hrest⟩ := h.coalesced
    have hkeep := System.put_error s.buffer event
    simp only [step]
    split <;> rename_i b hput <;> rw [hput] at hkeep
    · refine ⟨fun hnone => absurd (hkeep.symm.trans hnone) herror, ⟨rest ++ [event], fun c => ?_⟩,
        h.handed⟩
      rw [← append_assoc]
      exact coalesced_snoc (hrest c) event
    · exact ⟨fun hnone => absurd (hkeep.symm.trans hnone) herror, h.coalesced, h.handed⟩

theorem Carried.nextBatch (h : s.Carried) (herror : s.buffer.error = none) :
    s.nextBatch.Carried := by
  rw [nextBatch_eq_pops s herror]
  refine Inv.carried (List.foldlRecOn _ step (h.inv herror) fun s hs op hop => ?_)
  rw [eq_of_mem_replicate hop]
  exact inv_pop hs

theorem Carried.fail (h : s.Carried) (error : StreamError) :
    Carried { s with buffer := s.buffer.fail error } := ⟨nofun, h.coalesced, h.handed⟩

theorem Carried.done (h : s.Carried) : Carried { s with buffer := { s.buffer with done := true } } :=
  ⟨fun herror =>
    have hinv := h.inv herror
    ⟨⟨hinv.buffer.nodup, hinv.buffer.fresh, hinv.buffer.newest⟩, hinv.coalesced, hinv.numbers,
      hinv.handed, hinv.all_handed⟩, h.coalesced, h.handed⟩

end Stream

/-- The events among numbered items. -/
def eventsOf (items : List Numbered) : List Event :=
  items.filterMap fun e => match e.2 with
    | .event event => some event
    | .terminalError _ => none

/-- An error at the end carries no event. -/
theorem Handed.events {delivered yielded : List Numbered} (h : Handed delivered yielded) :
    eventsOf delivered <+: eventsOf yielded := by
  rcases h with hprefix | ⟨before, q, error, hprefix, rfl⟩
  · exact hprefix.filterMap _
  · have hsame : eventsOf (before ++ [(q, .terminalError (.ofCode "cleanup_unconfirmed"))]) =
        eventsOf (before ++ [(q, .terminalError error)]) := by
      simp [eventsOf]
    rw [hsame]
    exact hprefix.filterMap _

namespace System

variable {s : System}

theorem carried_turn (h : s.engine.stream.Carried) : s.engine.turn.1.stream.Carried := by
  unfold Engine.turn
  split
  · rename_i hget
    refine h.nextBatch ?_
    unfold EventBuffer.get at hget
    split at hget
    · cases hget
    · assumption
  all_goals exact h

theorem carried_step (h : s.engine.stream.Carried) (a : Action) :
    (s.step a).engine.stream.Carried := by
  cases a with
  | put event => exact h.put event
  | done => exact h.done
  | fail error ack => exact h.fail error
  | turn =>
    rw [step]
    split_ifs
    · exact carried_turn h
    · exact h
  | close =>
    rw [step]
    split_ifs
    · exact h.fail _
    · exact h
  | acknowledge =>
    simp only [step, Engine.acknowledge]
    split
    · exact h
    · split_ifs <;> exact h
  | request | fetch =>
    simp only [step]
    split_ifs
    · split <;> exact h
    · exact h
  | start | wake | release | accept =>
    rw [step]
    split_ifs <;> exact h
  | begin | abort code | cancel code | finish => exact h

/-- For every choice, what the client hands over in a run carries, run by run, a beginning of what
was put; and all of it, where the finish of the choice is handed over. -/
theorem handed_over_carries (limits : StreamLimits) (n : Nat) (logprobs : Option Nat) (chat : Bool)
    (actions : List Action) (c : Int) :
    let s := run limits n logprobs chat actions
    let handed := ofChoice c (eventsOf s.client.delivered)
    let accepted := ofChoice c s.engine.stream.accepted
    ∃ runs : List (List Event), List.Forall₂ Carries runs handed ∧ runs.flatten <+: accepted ∧
      ∀ deltas reason, accepted = deltas ++ [.choiceFinished c reason] → (∀ e ∈ deltas, e.IsDelta) →
        .choiceFinished c reason ∈ handed → runs.flatten = accepted := by
  intro s handed accepted
  have hcarried : s.engine.stream.Carried :=
    List.foldlRecOn actions step (motive := fun s => s.engine.stream.Carried)
      (Stream.inv_init limits).carried fun _ hs a _ => carried_step hs a
  have h : s.Inv := inv_run limits n logprobs chat actions
  have hall : eventsOf s.yielded = s.engine.stream.delivered.map Prod.snd := by
    have hstream : eventsOf (Engine.numbered s.engine.stream) =
        s.engine.stream.delivered.map Prod.snd := by
      simp [eventsOf, Engine.numbered, filterMap_map]
    rcases h.yielded with hy | ⟨-, error, hy⟩
    · rw [hy, hstream]
    · rw [hy, eventsOf, filterMap_append]
      exact (append_nil _).trans hstream
  obtain ⟨rest, hrest⟩ := hcarried.coalesced
  obtain ⟨behind, hbehind⟩ : handed <+: ofChoice c (s.engine.stream.popped ++ rest) := by
    refine List.IsPrefix.filter _ ?_
    calc eventsOf s.client.delivered
        <+: eventsOf s.yielded := h.handed.events
      _ <+: s.engine.stream.popped := hall ▸ hcarried.handed
      _ <+: s.engine.stream.popped ++ rest := prefix_append _ _
  obtain ⟨runs, hflatten, hruns⟩ := (hrest c).exists_runs carries_single carries_join
  rw [← hbehind] at hruns
  have hfront := forall₂_take_append runs handed behind hruns
  have hprefix : (runs.take handed.length).flatten <+: accepted := by
    refine ⟨(runs.drop handed.length).flatten, ?_⟩
    rw [← flatten_append, take_append_drop, hflatten]
  refine ⟨runs.take handed.length, hfront, hprefix, fun deltas reason haccepted hdeltas hfinish => ?_⟩
  -- a finish is a run of its own, and only the last event that was put is one
  obtain ⟨i, hi, hget⟩ := getElem_of_mem hfinish
  have hlt : i < (runs.take handed.length).length := hfront.length_eq.symm ▸ hi
  have hrun := (hfront.get hlt hi).alone
  rw [get_eq_getElem, get_eq_getElem, hget] at hrun
  have hmem : .choiceFinished c reason ∈ (runs.take handed.length).flatten :=
    mem_flatten.mpr ⟨_, getElem_mem hlt, by rw [hrun id]; exact mem_singleton_self _⟩
  rw [haccepted] at hprefix ⊢
  exact (prefix_concat_iff.mp hprefix).resolve_right fun hpre => hdeltas _ (hpre.subset hmem)

end System
end ArcticPlatform.Streaming
