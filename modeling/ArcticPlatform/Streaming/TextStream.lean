import ArcticPlatform.Library.Runs
import ArcticPlatform.Streaming.Accounting

/-!
# Streaming: the slots of a text stream

An embedding of the loop of `EngineStream.produce` for a text prompt, as far as it puts events,
with the pops of the reader in between.  A stream of `n` choices has at most one undelivered
delta and one finish event for each choice, its usage and its end, as long as merging is not
refused for the size of the joined event.

Main results:

- Theorem `slots_step`: every step keeps one slot for each of these events.
- Theorem `text_stream_never_overflows`: no put is refused for the number of events.
- Theorem `small_events_overflow`: where joined events would be too large, one is.
-/

namespace ArcticPlatform.Streaming

open PyJson List Function

/-! ## Why a put is refused -/

namespace EventBuffer

/-- The event is not joined to an open delta, and takes a slot of its own. -/
def TakesSlot (b : EventBuffer) : Event → Prop
  | .delta d => (b.merge d).1 = .ok false
  | _ => True

/-- A put of the event raises for the number of the events. -/
def RefusedForCount (b : EventBuffer) (event : Event) : Prop :=
  b.TakesSlot event ∧ eventSize event ≤ b.limits.maxEventBytes ∧
    b.limits.maxBufferEvents ≤ b.events.length

/-- A put of the event raises for its bytes. -/
def RefusedForBytes (b : EventBuffer) (event : Event) : Prop :=
  (b.put event).1 ≠ .ok () ∧ ¬ b.RefusedForCount event

instance (b : EventBuffer) : DecidablePred b.TakesSlot
  | .delta _ => inferInstanceAs (Decidable (_ = _))
  | .choiceFinished _ _ => inferInstanceAs (Decidable True)
  | .usage _ _ _ _ => inferInstanceAs (Decidable True)
  | .completed => inferInstanceAs (Decidable True)

instance (b : EventBuffer) : DecidablePred b.RefusedForCount :=
  fun _ => inferInstanceAs (Decidable (_ ∧ _ ∧ _))

instance (b : EventBuffer) : DecidablePred b.RefusedForBytes :=
  fun _ => inferInstanceAs (Decidable (_ ∧ _))

/-- The event is not kept apart from the open delta of its choice for the size of the two. -/
def mergeFits (b : EventBuffer) : Event → Bool
  | .delta d =>
    match b.openDeltas d.choiceIndex with
    | none => true
    | some i =>
      match (b.heap i).event with
      | .delta old =>
        match mergedKind old.kind d.kind with
        | none => true
        | some kind =>
          (b.heap i).size + kindGrowth old.kind kind +
            (MergedKey.all.map (appendedSize old d)).sum ≤ b.limits.maxEventBytes
      | _ => true
  | _ => true

end EventBuffer

/-! ## The stream -/

/-- How far the producer is. -/
inductive Stage where
  | choices
  | usage
  | completed
  | failed
  deriving DecidableEq

/-- The producer of a text stream with its buffer. -/
structure TextStream where
  n : Nat
  buffer : EventBuffer
  finished : List Int
  stage : Stage

namespace TextStream

def init (n : Nat) (limits : StreamLimits) : TextStream := ⟨n, .init limits, [], .choices⟩

/-- A step: an event that the producer puts, or a pop. -/
inductive Act where
  | delta (index : Int) (text : String) (tokenIds : List Int) (logprobs : Option (List Json))
  | finish (index : Int) (reason : FinishReason)
  | usage (promptTokens completionTokens : Int)
  | completed
  | pop

/-- The event of a put. -/
def Act.event : Act → Option Event
  | .delta index text tokenIds logprobs =>
    some (.delta ⟨index, .delta, some text, none, some tokenIds, logprobs⟩)
  | .finish index reason => some (.choiceFinished index reason)
  | .usage promptTokens completionTokens =>
    some (.usage promptTokens completionTokens (promptTokens + completionTokens) none)
  | .completed => some .completed
  | .pop => none

/-- `produce` comes to the step: the choice exists and is not finished, and the usage follows when all
choices are. -/
def Enabled (s : TextStream) : Act → Prop
  | .delta index text tokenIds _ =>
    s.stage = .choices ∧ (0 ≤ index ∧ index < s.n) ∧ index ∉ s.finished ∧
      (text ≠ "" ∨ tokenIds ≠ [])
  | .finish index reason =>
    s.stage = .choices ∧ (0 ≤ index ∧ index < s.n) ∧ index ∉ s.finished ∧ reason ≠ .toolCalls
  | .usage _ _ => s.stage = .choices ∧ s.finished.length = s.n
  | .completed => s.stage = .usage
  | .pop => True

/-- The producer behind a put. -/
def advanced (s : TextStream) : Act → TextStream
  | .finish index _ => { s with finished := index :: s.finished }
  | .usage _ _ => { s with stage := .usage }
  | .completed => { s with stage := .completed }
  | _ => s

/-- One step; a put that raises fails the stream. -/
def act (s : TextStream) (a : Act) : TextStream :=
  match a.event with
  | none => { s with buffer := (s.buffer.pop.map Prod.snd).getD s.buffer }
  | some event =>
    match s.buffer.put event with
    | (.ok (), b) => { s.advanced a with buffer := b }
    | (.error error, b) => { s with buffer := b.fail error, stage := .failed }

instance (s : TextStream) : (a : Act) → Decidable (s.Enabled a)
  | .delta _ _ _ _ => inferInstanceAs (Decidable (_ ∧ _ ∧ _ ∧ _))
  | .finish _ _ => inferInstanceAs (Decidable (_ ∧ _ ∧ _ ∧ _))
  | .usage _ _ => inferInstanceAs (Decidable (_ ∧ _))
  | .completed => inferInstanceAs (Decidable (_ = _))
  | .pop => inferInstanceAs (Decidable True)

def step (s : TextStream) (a : Act) : Option TextStream :=
  if s.Enabled a then some (s.act a) else none

/-- No event of the step is refused for its bytes. -/
def BytesFit (s : TextStream) (a : Act) : Prop :=
  ∀ event ∈ a.event, ¬ s.buffer.RefusedForBytes event

/-- No event of the step is refused for its bytes, or kept apart for them. -/
def AllFit (s : TextStream) (a : Act) : Prop :=
  ∀ event ∈ a.event, ¬ s.buffer.RefusedForBytes event ∧ s.buffer.mergeFits event

instance (s : TextStream) (a : Act) : Decidable (s.BytesFit a) :=
  inferInstanceAs (Decidable (∀ event ∈ a.event, _))

instance (s : TextStream) (a : Act) : Decidable (s.AllFit a) :=
  inferInstanceAs (Decidable (∀ event ∈ a.event, _))

/-! ## Slots -/

/-- What an event is, as far as a stream has it once. -/
def slot : Event → Nat × Int
  | .delta d => (0, d.choiceIndex)
  | .choiceFinished choiceIndex _ => (1, choiceIndex)
  | .usage _ _ _ _ => (2, 0)
  | .completed => (3, 0)

/-- What the buffer may hold. -/
def slots (s : TextStream) : List (Nat × Int) :=
  (List.range s.n).map (fun (c : Nat) => (0, (c : Int))) ++ s.finished.map (fun c => (1, c)) ++
    (if s.stage = .choices then [] else [(2, 0)]) ++ (if s.stage = .completed then [(3, 0)] else [])

/-- The buffer holds each of its events once, and the delta of a choice that is not finished is open. -/
structure Slots (s : TextStream) : Prop where
  inv : s.buffer.Inv
  alive : s.stage ≠ .failed
  finished_nodup : s.finished.Nodup
  finished_range : ∀ c ∈ s.finished, 0 ≤ c ∧ c < s.n
  nodup : (s.buffer.events.map fun i => slot (s.buffer.heap i).event).Nodup
  mem : ∀ i ∈ s.buffer.events, slot (s.buffer.heap i).event ∈ s.slots
  text : ∀ i ∈ s.buffer.events, ∀ d, (s.buffer.heap i).event = .delta d → d.kind = .delta
  opened : s.stage = .choices → ∀ i ∈ s.buffer.events, ∀ d, (s.buffer.heap i).event = .delta d →
    d.choiceIndex ∉ s.finished → s.buffer.openDeltas d.choiceIndex = some i

theorem slots_init (n : Nat) (limits : StreamLimits) : (init n limits).Slots where
  inv := EventBuffer.inv_init limits
  alive := by simp [init]
  finished_nodup := nodup_nil
  finished_range := by simp [init]
  nodup := nodup_nil
  mem := by simp [init, EventBuffer.init]
  text := by simp [init, EventBuffer.init]
  opened := by simp [init, EventBuffer.init]

variable {s : TextStream}

theorem Slots.length_finished (h : s.Slots) : s.finished.length ≤ s.n := by
  have hsub : s.finished ⊆ (List.range s.n).map fun (c : Nat) => (c : Int) := by
    intro c hc
    have hrange := h.finished_range c hc
    exact mem_map.mpr ⟨c.toNat, by simp; omega, by omega⟩
  have hle := (h.finished_nodup.subperm hsub).length_le
  simpa using hle

theorem Slots.length_events (h : s.Slots) :
    s.buffer.events.length ≤ 2 * s.n + (if s.stage = .choices then 0 else 1) +
      (if s.stage = .completed then 1 else 0) := by
  have hsub : (s.buffer.events.map fun i => slot (s.buffer.heap i).event) ⊆ s.slots := by
    intro k hk
    obtain ⟨i, hi, rfl⟩ := mem_map.mp hk
    exact h.mem i hi
  have hle := (h.nodup.subperm hsub).length_le
  have hfinished := h.length_finished
  simp only [length_map, slots, length_append, length_range] at hle
  split_ifs at hle ⊢ <;> simp only [length_nil, length_singleton] at hle <;> omega

/-! ## Steps -/

theorem slots_pop (h : s.Slots) :
    ({ s with buffer := (s.buffer.pop.map Prod.snd).getD s.buffer } : TextStream).Slots := by
  cases hpop : s.buffer.pop with
  | none => exact h
  | some result =>
    obtain ⟨event, b'⟩ := result
    obtain ⟨i, hevents, -, hheap, -, hopens⟩ := EventBuffer.pop_cases hpop
    have hsub : ∀ j ∈ b'.events, j ∈ s.buffer.events := fun j hj => by simp [hevents, hj]
    have hnodup := h.nodup
    rw [hevents, map_cons, nodup_cons] at hnodup
    constructor
    case inv => exact EventBuffer.inv_pop h.inv hpop
    case alive => exact h.alive
    case finished_nodup => exact h.finished_nodup
    case finished_range => exact h.finished_range
    case nodup =>
      simp only [Option.map_some, Option.getD_some, hheap]
      exact hnodup.2
    case mem =>
      simp only [Option.map_some, Option.getD_some, hheap]
      exact fun j hj => h.mem j (hsub j hj)
    case text =>
      simp only [Option.map_some, Option.getD_some, hheap]
      exact fun j hj => h.text j (hsub j hj)
    case opened =>
      simp only [Option.map_some, Option.getD_some, hheap]
      intro hstage j hj d hd hnot
      have hopen := h.opened hstage j (hsub j hj) d hd hnot
      rw [hopens, if_neg, hopen]
      rintro ⟨hi, -⟩
      obtain rfl : j = i := Option.some.inj (hopen.symm.trans hi)
      exact hnodup.1 (mem_map_of_mem hj)

/-- Behind a merge. -/
theorem slots_merge (h : s.Slots) {d old : Delta} {i : Nat} {kind : DeltaKind} {size : Int}
    (hmerges : s.buffer.Merges d i old kind size) :
    ({ s with buffer := s.buffer.replaced i ⟨.delta (old.merged d kind), size⟩ } : TextStream).Slots := by
  obtain ⟨front, back, hevents, -, -⟩ := h.inv.newest _ i hmerges.isOpen
  have hmem : i ∈ s.buffer.events := by simp [hevents]
  have hslot : ∀ j, slot ((s.buffer.replaced i ⟨.delta (old.merged d kind), size⟩).heap j).event =
      slot (s.buffer.heap j).event := by
    intro j
    by_cases hij : j = i
    · subst hij
      simp [EventBuffer.replaced, hmerges.isDelta, slot, Delta.merged]
    · simp [EventBuffer.replaced, update_of_ne hij]
  have hdelta : ∀ j d', ((s.buffer.replaced i ⟨.delta (old.merged d kind), size⟩).heap j).event =
      .delta d' → j ∈ s.buffer.events → ∃ d'', (s.buffer.heap j).event = .delta d'' ∧
        d'.choiceIndex = d''.choiceIndex ∧ d'.kind = .delta := by
    intro j d' hd' hj
    by_cases hij : j = i
    · subst hij
      simp only [EventBuffer.replaced, update_self, Event.delta.injEq] at hd'
      subst hd'
      refine ⟨old, hmerges.isDelta, rfl, ?_⟩
      have hmerged := hmerges.merged
      rw [h.text j hmem old hmerges.isDelta] at hmerged
      rcases mergedKind_cases hmerged with ⟨-, -, hkind⟩ | ⟨hkind, -⟩ | ⟨_, _, hkind, -⟩ |
        ⟨_, _, _, hkind, -⟩
      · exact hkind
      all_goals cases hkind
    · simp only [EventBuffer.replaced, update_of_ne hij] at hd'
      exact ⟨d', hd', rfl, h.text j hj d' hd'⟩
  constructor
  case inv =>
    apply EventBuffer.inv_replaced h.inv
    rw [EventBuffer.choiceAt, hmerges.isDelta]
    rfl
  case alive => exact h.alive
  case finished_nodup => exact h.finished_nodup
  case finished_range => exact h.finished_range
  case nodup =>
    simp only [hslot]
    exact h.nodup
  case mem =>
    simp only [hslot]
    exact h.mem
  case text =>
    intro j hj d' hd'
    obtain ⟨-, -, -, hkind⟩ := hdelta j d' hd' hj
    exact hkind
  case opened =>
    intro hstage j hj d' hd' hnot
    obtain ⟨d'', hd'', hchoice, -⟩ := hdelta j d' hd' hj
    rw [hchoice] at hnot ⊢
    exact h.opened hstage j hj d'' hd'' hnot

variable {event : Event}

theorem put_of_takesSlot {b : EventBuffer} (h : b.TakesSlot event) :
    b.put event = b.append event := by
  cases event with
  | delta d =>
    rw [EventBuffer.TakesSlot] at h
    obtain ⟨r, b', hmerge⟩ : ∃ r b', b.merge d = (r, b') := ⟨_, _, rfl⟩
    rw [hmerge] at h
    obtain rfl : r = .ok false := h
    rcases EventBuffer.merge_cases hmerge with ⟨-, rfl⟩ | ⟨hok, -⟩
    · simp only [EventBuffer.put, hmerge]
    · cases hok
  | choiceFinished choiceIndex reason => rfl
  | usage p c t r => rfl
  | completed => rfl

/-- Where a delta takes no slot, a put that does not raise joins it to the open delta. -/
theorem merges_of_put {b : EventBuffer} (h : ¬ b.TakesSlot event)
    (hput : (b.put event).1 = .ok ()) : ∃ d i old kind size, event = .delta d ∧
      b.Merges d i old kind size ∧ (b.put event).2 = b.replaced i ⟨.delta (old.merged d kind), size⟩ := by
  cases event with
  | delta d =>
    rw [EventBuffer.TakesSlot] at h
    obtain ⟨r, b', hmerge⟩ : ∃ r b', b.merge d = (r, b') := ⟨_, _, rfl⟩
    rw [hmerge] at h
    simp only [EventBuffer.put, hmerge] at hput ⊢
    rcases EventBuffer.merge_cases hmerge with ⟨hno, -⟩ | ⟨rfl, i, old, kind, size, hmerges, rfl⟩
    · cases r with
      | error e => cases hput
      | ok merged =>
        cases merged with
        | true => exact absurd rfl hno
        | false => exact absurd rfl h
    · exact ⟨d, i, old, kind, size, rfl, hmerges, rfl⟩
  | choiceFinished choiceIndex reason => exact absurd trivial h
  | usage p c t r => exact absurd trivial h
  | completed => exact absurd trivial h

theorem Slots.fresh_delta (h : s.Slots) {d : Delta} (hkind : d.kind = .delta)
    (hstage : s.stage = .choices) (hnot : d.choiceIndex ∉ s.finished)
    (htakes : s.buffer.TakesSlot (.delta d)) (hfits : s.buffer.mergeFits (.delta d)) :
    slot (.delta d) ∉ s.buffer.events.map fun i => slot (s.buffer.heap i).event := by
  intro hmem
  obtain ⟨i, hi, hslot⟩ := mem_map.mp hmem
  obtain ⟨old, hold, hchoice⟩ : ∃ old, (s.buffer.heap i).event = .delta old ∧
      old.choiceIndex = d.choiceIndex := by
    cases hevent : (s.buffer.heap i).event with
    | delta old => exact ⟨old, rfl, by rw [hevent] at hslot; exact (Prod.mk.inj hslot).2⟩
    | choiceFinished c r => simp [hevent, slot] at hslot
    | usage p c t r => simp [hevent, slot] at hslot
    | completed => simp [hevent, slot] at hslot
  have hopen := h.opened hstage i hi old hold (by rw [hchoice]; exact hnot)
  rw [hchoice] at hopen
  have hmerged : mergedKind old.kind d.kind = some .delta := by
    rw [h.text i hi old hold, hkind]
    rfl
  simp only [EventBuffer.mergeFits, hopen, hold, hmerged, decide_eq_true_eq] at hfits
  simp only [EventBuffer.TakesSlot, EventBuffer.merge, hopen, hold, hmerged,
    if_neg (Int.not_lt.mpr hfits)] at htakes
  split_ifs at htakes
  cases htakes

variable {a : Act}

theorem Slots.fresh (h : s.Slots) (henabled : s.Enabled a) (hevent : a.event = some event)
    (htakes : s.buffer.TakesSlot event) (hfits : s.buffer.mergeFits event) :
    slot event ∉ s.buffer.events.map fun i => slot (s.buffer.heap i).event := by
  have hslots : ∀ k, k ∉ s.slots → k ∉ s.buffer.events.map fun i => slot (s.buffer.heap i).event := by
    intro k hk hmem
    obtain ⟨i, hi, rfl⟩ := mem_map.mp hmem
    exact hk (h.mem i hi)
  cases a with
  | delta index text tokenIds logprobs =>
    cases hevent
    obtain ⟨hstage, -, hnot, -⟩ := henabled
    exact h.fresh_delta rfl hstage hnot htakes hfits
  | finish index reason =>
    cases hevent
    obtain ⟨hstage, -, hnot, -⟩ := henabled
    exact hslots _ (by simp [slots, slot, hstage, hnot])
  | usage p c =>
    cases hevent
    exact hslots _ (by simp [slots, slot, henabled.1])
  | completed =>
    cases hevent
    have hstage : s.stage = .usage := henabled
    exact hslots _ (by simp [slots, slot, hstage])
  | pop => cases hevent

/-- Behind an append. -/
theorem slots_append (h : s.Slots) (henabled : s.Enabled a) (hevent : a.event = some event)
    (hfresh : slot event ∉ s.buffer.events.map fun i => slot (s.buffer.heap i).event) (size : Int) :
    ({ s.advanced a with buffer := s.buffer.appended ⟨event, size⟩ } : TextStream).Slots := by
  have hheap : ∀ i ∈ s.buffer.events,
      (s.buffer.appended ⟨event, size⟩).heap i = s.buffer.heap i := by
    intro i hi
    exact update_of_ne (ne_of_lt (h.inv.fresh i hi)) _ _
  have hnext : ((s.buffer.appended ⟨event, size⟩).heap s.buffer.next).event = event := by
    simp [EventBuffer.appended]
  have hevents : (s.buffer.appended ⟨event, size⟩).events = s.buffer.events ++ [s.buffer.next] := rfl
  have hsame : (s.buffer.events.map fun i =>
      slot ((s.buffer.appended ⟨event, size⟩).heap i).event) =
      s.buffer.events.map fun i => slot (s.buffer.heap i).event := by
    apply map_congr_left
    intro i hi
    rw [hheap i hi]
  have hstages : (s.advanced a).stage ≠ .failed ∧ (∀ k ∈ s.slots, k ∈ (s.advanced a).slots) ∧
      slot event ∈ (s.advanced a).slots ∧ ∀ d, event = .delta d → d.kind = .delta := by
    cases a with
    | delta index text tokenIds logprobs =>
      cases hevent
      obtain ⟨hstage, hrange, -, -⟩ := henabled
      refine ⟨h.alive, fun k hk => hk, ?_, ?_⟩
      · have hmem : (0, index) ∈ (List.range s.n).map (fun (c : Nat) => ((0 : Nat), (c : Int))) :=
          mem_map.mpr ⟨index.toNat, by simp; omega, by simp; omega⟩
        simp only [slot, advanced, slots, mem_append]
        exact .inl (.inl (.inl hmem))
      · rintro d ⟨⟩
        rfl
    | finish index reason =>
      cases hevent
      refine ⟨h.alive, ?_, ?_, by simp⟩
      · intro k hk
        simp only [slots, advanced, mem_append, map_cons, mem_cons] at hk ⊢
        tauto
      · simp [slots, advanced, slot]
    | usage p c =>
      cases hevent
      refine ⟨by simp [advanced], ?_, by simp [slots, advanced, slot], by simp⟩
      intro k hk
      simp only [slots, advanced, henabled.1, mem_append] at hk ⊢
      simp at hk ⊢
      exact .inl hk
    | completed =>
      cases hevent
      have hstage : s.stage = .usage := henabled
      refine ⟨by simp [advanced], ?_, by simp [slots, advanced, slot], by simp⟩
      intro k hk
      simp only [slots, advanced, hstage, mem_append] at hk ⊢
      simp at hk ⊢
      exact .inl hk
    | pop => cases hevent
  have hfinished : (s.advanced a).finished.Nodup ∧
      ∀ c ∈ (s.advanced a).finished, 0 ≤ c ∧ c < (s.advanced a).n := by
    cases a with
    | finish index reason =>
      obtain ⟨-, hrange, hnot, -⟩ := henabled
      refine ⟨nodup_cons.mpr ⟨hnot, h.finished_nodup⟩, ?_⟩
      intro c hc
      rcases mem_cons.mp hc with rfl | hc
      · exact hrange
      · exact h.finished_range c hc
    | _ => exact ⟨h.finished_nodup, h.finished_range⟩
  obtain ⟨halive, hmono, hnew, htext⟩ := hstages
  constructor
  case inv => exact EventBuffer.inv_appended h.inv _
  case alive => exact halive
  case finished_nodup => exact hfinished.1
  case finished_range => exact hfinished.2
  case nodup =>
    simp only [hevents, map_append, map_singleton, hsame, hnext]
    rw [nodup_append]
    refine ⟨h.nodup, nodup_singleton _, ?_⟩
    rintro k hk k' hk' rfl
    exact hfresh (mem_singleton.mp hk' ▸ hk)
  case mem =>
    intro i hi
    rcases mem_append.mp hi with hi | hi
    · simp only [hheap i hi]
      exact hmono _ (h.mem i hi)
    · obtain rfl := mem_singleton.mp hi
      simp only [hnext]
      exact hnew
  case text =>
    intro i hi d hd
    rcases mem_append.mp hi with hi | hi
    · simp only [hheap i hi] at hd
      exact h.text i hi d hd
    · obtain rfl := mem_singleton.mp hi
      simp only [hnext] at hd
      exact htext d hd
  case opened =>
    intro hstage i hi d hd hnot
    have hold : i ∈ s.buffer.events → (s.buffer.heap i).event = .delta d ∧
        slot (.delta d) ≠ slot event := by
      intro hi
      simp only [hheap i hi] at hd
      refine ⟨hd, ?_⟩
      rintro heq
      exact hfresh (mem_map.mpr ⟨i, hi, by rw [hd]; exact heq⟩)
    rcases mem_append.mp hi with hi' | hi'
    · obtain ⟨hd', hne⟩ := hold hi'
      cases a with
      | delta index text tokenIds logprobs =>
        cases hevent
        have hchoice : d.choiceIndex ≠ index := by
          rintro rfl
          exact hne rfl
        simp only [EventBuffer.appended, update_of_ne hchoice]
        exact h.opened henabled.1 i hi' d hd' hnot
      | finish index reason =>
        cases hevent
        simp only [advanced, mem_cons, not_or] at hnot
        simp only [EventBuffer.appended, update_of_ne hnot.1]
        exact h.opened henabled.1 i hi' d hd' hnot.2
      | usage p c => simp [advanced] at hstage
      | completed => simp [advanced] at hstage
      | pop => cases hevent
    · obtain rfl := mem_singleton.mp hi'
      simp only [hnext] at hd
      subst hd
      simp [EventBuffer.appended]

/-- Every step keeps the slots, as long as no event is refused or kept apart for its bytes. -/
theorem slots_step (h : s.Slots) (hroom : 2 * s.n + 2 ≤ s.buffer.limits.maxBufferEvents)
    (henabled : s.Enabled a) (hfit : s.AllFit a) :
    (s.act a).Slots ∧ (s.act a).n = s.n ∧ (s.act a).buffer.limits = s.buffer.limits := by
  rw [act]
  cases hevent : a.event with
  | none =>
    refine ⟨slots_pop h, rfl, ?_⟩
    cases hpop : s.buffer.pop with
    | none => rfl
    | some result => exact EventBuffer.limits_pop hpop
  | some event =>
    obtain ⟨hbytes, hfits⟩ := hfit event hevent
    have hcount : ¬ s.buffer.RefusedForCount event := by
      rintro ⟨-, -, hfull⟩
      have hlength := h.length_events
      have hstage : s.stage ≠ .completed := by
        intro hstage
        cases a <;> simp [Enabled, hstage, Act.event] at henabled hevent
      split_ifs at hlength <;> omega
    have hok : (s.buffer.put event).1 = .ok () := by
      by_contra hno
      exact hbytes ⟨hno, hcount⟩
    have hn : (s.advanced a).n = s.n := by cases a <;> rfl
    by_cases htakes : s.buffer.TakesSlot event
    · have hput := put_of_takesSlot htakes
      rw [hput] at hok
      obtain ⟨r, b', happend⟩ : ∃ r b', s.buffer.append event = (r, b') := ⟨_, _, rfl⟩
      rw [happend] at hok
      rcases EventBuffer.append_cases happend with ⟨_, rfl, -⟩ | ⟨rfl, -, rfl⟩
      · cases hok
      · simp only [hput, happend]
        exact ⟨slots_append h henabled hevent (h.fresh henabled hevent htakes hfits) _, hn, rfl⟩
    · obtain ⟨d, i, old, kind, size, rfl, hmerges, hput⟩ := merges_of_put htakes hok
      have hadvanced : s.advanced a = s := by
        cases a with
        | delta index text tokenIds logprobs => rfl
        | _ => cases hevent
      have hpair : s.buffer.put (.delta d) =
          (.ok (), s.buffer.replaced i ⟨.delta (old.merged d kind), size⟩) := Prod.ext hok hput
      simp only [hpair, hadvanced]
      exact ⟨slots_merge h hmerges, trivial, rfl⟩

/-- In a text stream with room for `2n + 2` events no put is refused for the number of events, where
no event is refused for its bytes or kept apart from the open delta of its choice for them. -/
theorem text_stream_never_overflows (n : Nat) (limits : StreamLimits)
    (hroom : 2 * n + 2 ≤ limits.maxBufferEvents) {s : TextStream}
    (hs : Runs.Reaches step AllFit (init n limits) s) (a : Act) (henabled : s.Enabled a) :
    ∀ event ∈ a.event, ¬ s.buffer.RefusedForCount event := by
  have hslots : s.Slots ∧ s.n = n ∧ s.buffer.limits = limits := by
    apply hs.invariant
    · exact ⟨slots_init n limits, rfl, rfl⟩
    · rintro t a t' ⟨hslots, hn, hlimits⟩ hfit hstep
      rw [step] at hstep
      split_ifs at hstep with henabled
      cases hstep
      obtain ⟨hnext, hn', hlimits'⟩ := slots_step hslots (by rw [hn, hlimits]; exact hroom) henabled hfit
      exact ⟨hnext, hn'.trans hn, hlimits'.trans hlimits⟩
  obtain ⟨hslots, hn, hlimits⟩ := hslots
  rintro event hevent ⟨-, -, hfull⟩
  have hlength := hslots.length_events
  have hstage : s.stage ≠ .completed := by
    intro hstage
    cases a <;> simp [Enabled, hstage, Act.event] at henabled hevent
  rw [hn] at hlength
  rw [hlimits] at hfull
  split_ifs at hlength <;> omega

/-- Two choices take turns, and one delta of them is popped. -/
theorem text_stream_never_overflows_two :
    ∃ s, Runs.Reaches step AllFit (init 2 ⟨6, 1000, 200⟩) s ∧
      ¬ s.buffer.RefusedForCount (.choiceFinished 1 .stop) := by
  obtain ⟨s, hs, henabled⟩ : ∃ s, Runs.Reaches step AllFit (init 2 ⟨6, 1000, 200⟩) s ∧
      s.Enabled (.finish 1 .stop) :=
    Runs.exists_reaches [.delta 0 "a" [1] none, .delta 1 "b" [2] none, .pop,
      .delta 0 "c" [3] none, .delta 1 "d" [4] none] (by decide)
  exact ⟨s, hs, text_stream_never_overflows 2 ⟨6, 1000, 200⟩ (by decide) hs _ henabled _ rfl⟩

/-- Where two deltas of a choice are too large for one event, they take a slot each, and a stream of one
choice overflows though no event is refused for its bytes. -/
theorem small_events_overflow :
    ∃ s, Runs.Reaches step BytesFit (init 1 ⟨4, 1000, 60⟩) s ∧
      s.Enabled (.delta 0 "e" [5] none) ∧ s.BytesFit (.delta 0 "e" [5] none) ∧
      s.buffer.RefusedForCount (.delta ⟨0, .delta, some "e", none, some [5], none⟩) :=
  Runs.exists_reaches [.delta 0 "a" [1] none, .delta 0 "b" [2] none, .delta 0 "c" [3] none,
    .delta 0 "d" [4] none] (by decide)

end TextStream

end ArcticPlatform.Streaming
