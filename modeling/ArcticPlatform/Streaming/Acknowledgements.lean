import ArcticPlatform.Streaming.Client
import ArcticPlatform.Streaming.Content

/-!
# Streaming: acknowledgements

The generator `stream_events` and a client that reads from it.  Batches, calls of
`acknowledge_stream`, failures and aborts interleave in any order; a step that is not enabled
changes nothing.

Main results:

- Theorem `Inv.step`: what every step keeps.
- Theorem `acknowledgements_agree`: the acknowledgements of every run, and what is handed over.
-/

namespace ArcticPlatform.Streaming

open List

/-- Where the generator `stream_events` stands. -/
inductive Reader where
  | notStarted
  | reading
  /-- It waits for `ack`. -/
  | waiting
  /-- It is in its `finally` block. -/
  | closing
  | returned
  deriving DecidableEq

/-- An `EngineStream` with its generator. -/
structure Engine where
  stream : Stream
  reader : Reader
  /-- It is in `_engine_streams`. -/
  registered : Bool
  ack : Bool
  pendingSequence : Option Nat

namespace Engine

/-- The events that were numbered. -/
def numbered (stream : Stream) : List Numbered := stream.delivered.map fun e => (e.1, .event e.2)

/-- A turn of the loop of `stream_events`, and the batch that it yields. -/
def turn (e : Engine) : Engine × Option (List Numbered) :=
  match e.stream.buffer.get with
  | .event _ _ =>
    let stream := e.stream.nextBatch
    let batch := (numbered stream).drop (numbered e.stream).length
    ({ stream := stream
       reader := if stream.completed then .returned else .waiting
       registered := e.registered && !stream.completed
       ack := false
       pendingSequence := batch.getLast?.map (·.1) }, some batch)
  | .error error => ({ e with reader := .closing }, some [(e.stream.sequence, .terminalError error)])
  | .stop => ({ e with reader := .closing }, none)
  | .wait => (e, none)

/-- The buffer fails, and `ack` may be set. -/
def fail (e : Engine) (error : StreamError) (ack : Bool) : Engine :=
  { e with
    stream := { e.stream with buffer := e.stream.buffer.fail error }
    ack := e.ack || ack }

/-- `acknowledge_stream`; `none` is its exception. -/
def acknowledge (e : Engine) (sequence : Nat) : Option Engine :=
  if !e.registered then some e
  else if e.pendingSequence ≠ some sequence then none
  else some { e with pendingSequence := none, ack := true }

end Engine

/-- An engine and a client.  `batches` are yielded and not fetched, `acks` is a call of
`acknowledge_stream` under way, `refused` says that one has raised, and `yielded`
records all that was yielded. -/
structure System where
  engine : Engine
  client : Client
  remoteStream : Bool
  batches : List (List Numbered)
  acks : Option Nat
  refused : Bool
  yielded : List Numbered

inductive Action where
  | put (event : Event)
  | done
  | fail (error : StreamError) (ack : Bool)
  | start
  | turn
  | wake
  | close
  /-- The stream leaves `_engine_streams` after it was stopped. -/
  | release
  | acknowledge
  | begin
  /-- `_fetch_batch` acknowledges what it fetched before, or starts the stream. -/
  | request
  | fetch
  /-- `_accept_event`, and whether the cleanup behind a terminal error is unconfirmed -/
  | accept (unconfirmed : Bool)
  | abort (code : String)
  /-- The read is cancelled, or what it awaits raises. -/
  | cancel (code : String)
  | finish

namespace System

/-- The state before anything happens. -/
def init (limits : StreamLimits) (n : Nat) (logprobs : Option Nat) (chat : Bool) : System where
  engine := ⟨.init limits, .notStarted, true, false, none⟩
  client := ⟨n, logprobs, chat, .idle, none, 0, false, none, false, none, ∅, [], []⟩
  remoteStream := false
  batches := []
  acks := none
  refused := false
  yielded := []

def step (s : System) : Action → System
  | .put event => { s with engine := { s.engine with stream := s.engine.stream.step (.put event) } }
  | .done =>
    let stream := s.engine.stream
    { s with engine := { s.engine with
        stream := { stream with buffer := { stream.buffer with done := true } } } }
  | .fail error ack => { s with engine := s.engine.fail error ack }
  | .start =>
    if s.remoteStream ∧ s.engine.reader = .notStarted then
      { s with engine := { s.engine with reader := .reading } }
    else s
  | .turn =>
    if s.engine.reader = .reading then
      { s with
        engine := s.engine.turn.1
        batches := s.batches ++ s.engine.turn.2.toList
        yielded := s.yielded ++ s.engine.turn.2.toList.flatten }
    else s
  | .wake =>
    if s.engine.reader = .waiting ∧ s.engine.ack then
      { s with engine := { s.engine with reader := .reading } }
    else s
  | .close =>
    if s.engine.reader = .closing then
      { s with engine := { s.engine.fail (.ofCode "cancelled") true with
          reader := .returned, registered := false } }
    else s
  | .release =>
    if s.engine.stream.buffer.error.isSome then
      { s with engine := { s.engine with registered := false } }
    else s
  | .acknowledge =>
    match s.acks with
    | none => s
    | some sequence =>
      match s.engine.acknowledge sequence with
      | none => { s with acks := none, refused := true }
      | some engine =>
        { s with
          engine := engine
          acks := none
          client := if s.client.phase = .acknowledging then { s.client with phase := .awaiting }
            else s.client }
  | .begin => { s with client := s.client.begin }
  | .request =>
    if s.client.phase = .reading ∧ s.client.pendingEvents = [] then
      match s.client.previousSequence with
      | some sequence =>
        { s with client := { s.client with phase := .acknowledging }, acks := some sequence }
      | none => { s with client := { s.client with phase := .awaiting }, remoteStream := true }
    else s
  | .fetch =>
    if s.client.phase = .awaiting then
      match s.batches with
      | [] => s
      | [] :: batches =>
        { s with client := s.client.fail "invalid_event_sequence", batches := batches }
      | batch :: batches =>
        { s with
          client := { s.client with
            phase := .reading, pendingEvents := s.client.pendingEvents ++ batch }
          batches := batches }
    else s
  | .accept unconfirmed =>
    if s.client.phase = .reading ∨ s.client.phase = .idle ∧ s.client.error.isNone ∧ !s.client.closed then
      { s with client := s.client.accept unconfirmed }
    else s
  | .abort code => { s with client := s.client.abort code }
  | .cancel code => { s with client := s.client.fail code }
  | .finish => { s with client := s.client.finish }

/-- A run. -/
def run (limits : StreamLimits) (n : Nat) (logprobs : Option Nat) (chat : Bool)
    (actions : List Action) : System := actions.foldl step (init limits n logprobs chat)

/-! ## What every step keeps -/

/-- The generator yields nothing any more. -/
def Over (s : System) : Prop := s.engine.reader = .closing ∨ s.engine.reader = .returned

/-- The invariant.  What is pending was yielded last, and the client is the one to move. -/
structure Inv (s : System) : Prop where
  client : s.client.Inv
  numbers : s.engine.stream.delivered.map Prod.fst = range s.engine.stream.sequence
  completed : s.Over ∨ s.engine.stream.completed = false
  yielded : s.yielded = Engine.numbered s.engine.stream ∨ s.Over ∧ ∃ error, s.yielded =
    Engine.numbered s.engine.stream ++ [(s.engine.stream.sequence, .terminalError error)]
  batches : ∀ b ∈ s.batches, b ≠ []
  pending : ∀ p, s.engine.pendingSequence = some p → p + 1 = s.engine.stream.sequence ∧
    s.engine.reader ≠ .notStarted ∧
    (s.engine.ack = true ∨ s.engine.reader = .reading → s.engine.stream.buffer.error.isSome)
  acks : ∀ q, s.acks = some q → s.engine.pendingSequence = some q ∧
    (s.client.phase = .acknowledging ∨ s.client.Gone)
  refused : s.refused = false
  handed : Handed s.client.delivered s.yielded
  live : ¬s.client.Gone → s.client.delivered ++ s.client.pendingEvents ++ s.batches.flatten = s.yielded
  holds : s.client.Holds → s.client.delivered.length ≤ s.engine.stream.sequence ∧
    s.engine.stream.sequence ≤ s.client.delivered.length + s.client.pendingEvents.length
  nonePending : s.client.Holds → s.engine.pendingSequence = none →
    s.remoteStream = false ∧ s.engine.reader = .notStarted ∧ s.client.pendingEvents = [] ∧
      s.client.delivered = [] ∨
    s.Over ∧ s.client.delivered.length = s.engine.stream.sequence ∧ s.client.pendingEvents ≠ []
  acknowledging : s.client.phase = .acknowledging → s.acks.isSome ∧ s.client.pendingEvents = [] ∧
    s.client.delivered.length = s.engine.stream.sequence
  awaiting : s.client.phase = .awaiting → s.client.pendingEvents = [] ∧
    (s.client.delivered.length = s.engine.stream.sequence ∨ s.engine.pendingSequence.isSome ∧
      ∃ b rest, s.batches = b :: rest ∧
        s.client.delivered.length + b.length = s.engine.stream.sequence)

variable {s : System}

theorem Inv.steady (h : s.Inv) {c : Client} (hs : s.client.Steady c) : Inv { s with client := c } := by
  have hphase : ∀ phase, phase ≠ .idle → phase ≠ .reading → c.phase = phase →
      s.client.phase = phase ∧ ¬c.Gone := by
    intro phase hidle hreading hc
    rcases hs.phase with hsame | hgone | ⟨-, hread⟩
    · exact ⟨hsame ▸ hc, fun hg => hidle (hc ▸ hg.1)⟩
    · exact absurd (hc ▸ hgone.1) hidle
    · exact absurd (hc ▸ hread) hreading
  have hpend : ¬c.Gone → c.pendingEvents = s.client.pendingEvents := fun hlive => (hs.live hlive).2.1
  refine ⟨h.client.steady hs, h.numbers, h.completed, h.yielded, h.batches, h.pending, fun q hq => ?_,
    h.refused, hs.delivered ▸ h.handed, fun hlive => ?_, fun hholds => ?_, fun hholds hnone => ?_,
    fun hack => ?_, fun hawait => ?_⟩
  · obtain ⟨hpending, hwho⟩ := h.acks q hq
    refine ⟨hpending, hwho.elim (fun hack => ?_) fun hg => .inr (hs.gone hg)⟩
    rcases hs.phase with hsame | hgone | ⟨hidle, -⟩
    · exact .inl (hsame.trans hack)
    · exact .inr hgone
    · exact absurd (hack.symm.trans hidle) nofun
  · rw [hs.delivered, hpend hlive]
    exact h.live (hs.live hlive).1
  · rw [hs.delivered, hpend hholds.1]
    exact h.holds (hs.holds hholds)
  · rw [hs.delivered, hpend hholds.1]
    exact h.nonePending (hs.holds hholds) hnone
  · obtain ⟨hack', hlive⟩ := hphase .acknowledging nofun nofun hack
    rw [hs.delivered, hpend hlive]
    exact h.acknowledging hack'
  · obtain ⟨hawait', hlive⟩ := hphase .awaiting nofun nofun hawait
    rw [hs.delivered, hpend hlive]
    exact h.awaiting hawait'

/-- A step of the engine that yields nothing. -/
structure Quiet (e e' : Engine) : Prop where
  stream : (e'.stream.delivered, e'.stream.sequence, e'.stream.completed) =
    (e.stream.delivered, e.stream.sequence, e.stream.completed)
  pending : e'.pendingSequence = e.pendingSequence
  reader : e'.reader = e.reader ∨ e.reader = .waiting ∧ e'.reader = .reading ∨
    (e.reader = .reading ∨ e.reader = .closing) ∧ (e'.reader = .closing ∨ e'.reader = .returned)
  awake : e'.ack = true ∨ e'.reader = .reading →
    e.ack = true ∨ e.reader = .reading ∨ e'.stream.buffer.error.isSome
  error : e.stream.buffer.error.isSome → e'.stream.buffer.error.isSome

theorem Inv.quiet (h : s.Inv) {e : Engine} (hq : Quiet s.engine e) : Inv { s with engine := e } := by
  obtain ⟨hdelivered, hsequence, hcompleted⟩ := by simpa using hq.stream
  have hover : s.Over → Over { s with engine := e } := by
    rintro hover
    rcases hq.reader with hsame | ⟨hwait, -⟩ | ⟨-, hover'⟩
    · simpa [Over, hsame] using hover
    · simp [Over, hwait] at hover
    · exact hover'
  have hnot : e.reader = .notStarted ↔ s.engine.reader = .notStarted := by
    rcases hq.reader with hsame | ⟨hwait, hread⟩ | ⟨hread | hclose, hclose' | hret⟩ <;> simp [*]
  have hnumbered : Engine.numbered e.stream = Engine.numbered s.engine.stream :=
    congrArg (map _) hdelivered
  refine ⟨h.client, ?_, ?_, ?_, h.batches, fun p hp => ?_, fun q hacks => ?_, h.refused, h.handed,
    h.live, ?_, fun hholds hnone => ?_, ?_, ?_⟩
  · simpa only [hdelivered, hsequence] using h.numbers
  · simpa only [hcompleted] using h.completed.imp_left hover
  · simpa only [hnumbered, hsequence] using h.yielded.imp_right fun hy => ⟨hover hy.1, hy.2⟩
  · obtain ⟨hlast, hstarted, hfailed⟩ := h.pending p (hq.pending ▸ hp)
    refine ⟨hlast.trans hsequence.symm, hnot.not.mpr hstarted, fun hawake => ?_⟩
    rcases hq.awake hawake with hack | hread | herror
    · exact hq.error (hfailed (.inl hack))
    · exact hq.error (hfailed (.inr hread))
    · exact herror
  · exact hq.pending ▸ h.acks q hacks
  · simpa only [hsequence] using h.holds
  · have hcases := h.nonePending hholds (hq.pending ▸ hnone)
    simpa only [hsequence, hnot] using hcases.imp_right fun hc => ⟨hover hc.1, hc.2⟩
  · simpa only [hsequence] using h.acknowledging
  · simpa only [hsequence, hq.pending] using h.awaiting

/-! ## Turns of the generator -/

theorem foldl_number (events : List Event) (s : Stream)
    (h : s.delivered.map Prod.fst = range s.sequence) :
    ∃ batch, (events.foldl Stream.number s).delivered = s.delivered ++ batch ∧
      (events.foldl Stream.number s).delivered.map Prod.fst =
        range (events.foldl Stream.number s).sequence ∧
      (s.completed = false → events ≠ [] → batch ≠ []) := by
  induction events generalizing s with
  | nil => exact ⟨[], by simp, h, nofun⟩
  | cons event events ih =>
    rw [foldl_cons]
    by_cases hdone : s.completed = true
    · have hsame : s.number event = s := if_pos hdone
      obtain ⟨batch, hbatch, hnumbers, -⟩ := ih s h
      exact ⟨batch, by rwa [hsame], by rwa [hsame], fun hnot => by simp [hdone] at hnot⟩
    · obtain ⟨completed, hone⟩ : ∃ completed, s.number event = { s with
          delivered := s.delivered ++ [(s.sequence, event)]
          sequence := s.sequence + 1
          completed := completed } := ⟨_, if_neg hdone⟩
      obtain ⟨batch, hbatch, hnumbers, -⟩ := ih (s.number event) (by simp [hone, h, range_succ])
      refine ⟨(s.sequence, event) :: batch, ?_, hnumbers, fun _ _ => cons_ne_nil _ _⟩
      rw [hbatch, hone, append_assoc, singleton_append]

/-- What a turn with an event yields. -/
theorem nextBatch_spec (s : Stream) (h : s.delivered.map Prod.fst = range s.sequence)
    (hopen : s.completed = false) {event : Event} {b : EventBuffer}
    (hget : s.buffer.get = .event event b) :
    ∃ batch, batch ≠ [] ∧ Engine.numbered s.nextBatch = Engine.numbered s ++ batch ∧
      s.nextBatch.delivered.map Prod.fst = range s.nextBatch.sequence := by
  simp only [Stream.nextBatch, hget]
  obtain ⟨batch, hbatch, hnumbers, hne⟩ := foldl_number (event :: b.drain.1)
    { s with buffer := b.drain.2, popped := s.popped ++ event :: b.drain.1 } h
  refine ⟨batch.map fun e => (e.1, .event e.2), by simpa using hne hopen (cons_ne_nil _ _), ?_,
    hnumbers⟩
  rw [Engine.numbered, hbatch, map_append]
  rfl

theorem length_numbered {s : Stream} (h : s.delivered.map Prod.fst = range s.sequence) :
    (Engine.numbered s).length = s.sequence := by
  simpa [Engine.numbered] using congrArg List.length h

theorem getLast?_numbers {l batch : List Numbered} {n : Nat}
    (h : (l ++ batch).map Prod.fst = range n) (hne : batch ≠ []) :
    ∃ p, batch.getLast?.map (·.1) = some p ∧ p + 1 = n := by
  have hlast := congrArg getLast? h
  rw [getLast?_map, getLast?_append_of_ne_nil _ hne, getLast?_range] at hlast
  split_ifs at hlast with hzero
  · simp [hne] at hlast
  · exact ⟨n - 1, hlast, by omega⟩

/-- A turn with an event: nothing was pending, and the client waits for the batch or is gone. -/
theorem Inv.turn_event (h : s.Inv) (hread : s.engine.reader = .reading) {event : Event} {b : EventBuffer}
    (hget : s.engine.stream.buffer.get = .event event b) : Inv (s.step .turn) := by
  have hover : ¬s.Over := by simp [Over, hread]
  obtain ⟨batch, hne, hbatch, hnumbers⟩ :=
    nextBatch_spec _ h.numbers (h.completed.resolve_left hover) hget
  have hyielded := h.yielded.resolve_right fun hy => hover hy.1
  have hnone : s.engine.pendingSequence = none := by
    by_contra hsome
    obtain ⟨p, hp⟩ := Option.ne_none_iff_exists'.mp hsome
    obtain ⟨error, herror⟩ := Option.isSome_iff_exists.mp ((h.pending p hp).2.2 (.inr hread))
    simp [EventBuffer.get, herror] at hget
  have hacks : s.acks = none := Option.eq_none_iff_forall_ne_some.mpr fun q hq => by
    simp [(h.acks q hq).1] at hnone
  have hholds : ¬s.client.Holds := fun hh => by
    rcases h.nonePending hh hnone with ⟨-, hnot, -⟩ | ⟨hov, -⟩
    · rw [hread] at hnot
      cases hnot
    · exact hover hov
  have hnumbers' : (Engine.numbered s.engine.stream ++ batch).map Prod.fst =
      range s.engine.stream.nextBatch.sequence := by
    rw [← hbatch, ← hnumbers, Engine.numbered, map_map]
    rfl
  obtain ⟨p, hp, hlast⟩ := getLast?_numbers hnumbers' hne
  have hlength : s.engine.stream.sequence + batch.length = s.engine.stream.nextBatch.sequence := by
    rw [← length_numbered h.numbers, ← length_append, ← hbatch, length_numbered hnumbers]
  rw [step, if_pos hread]
  simp only [Engine.turn, hget, hbatch, drop_left, hp, Option.toList_some, flatten_singleton]
  refine { h with
    numbers := hnumbers
    completed := ?_
    yielded := .inl (by rw [hyielded, hbatch])
    batches := ?_
    pending := fun p' hp' => ?_
    acks := by simp [hacks]
    handed := h.handed.append _
    live := fun hlive => ?_
    holds := fun hh => absurd hh hholds
    nonePending := fun hh => absurd hh hholds
    acknowledging := fun ha => ?_
    awaiting := fun hawait => ?_ }
  · cases hdone : s.engine.stream.nextBatch.completed <;> simp [Over]
  · simpa [or_imp, forall_and, hne] using h.batches
  · cases hp'
    refine ⟨hlast, ?_, ?_⟩ <;> cases s.engine.stream.nextBatch.completed <;> simp
  · rw [flatten_append, flatten_singleton, ← append_assoc]
    exact congrArg (· ++ batch) (h.live hlive)
  · have hsome := (h.acknowledging ha).1
    simp [hacks] at hsome
  · obtain ⟨hpend, hd | ⟨hsome, -⟩⟩ := h.awaiting hawait
    · have hlive := congrArg List.length (h.live fun hg => by simp [hg.1] at hawait)
      rw [hyielded, length_numbered h.numbers, hpend] at hlive
      have hflat : s.batches = [] := by
        cases hb : s.batches with
        | nil => rfl
        | cons first rest =>
          have hfirst := length_pos_of_ne_nil (h.batches first (hb ▸ mem_cons_self))
          simp [hb] at hlive
          omega
      exact ⟨hpend, .inr ⟨rfl, batch, [], by rw [hflat]; rfl, by rw [← hlength, hd]⟩⟩
    · simp [hnone] at hsome

theorem Inv.turn (h : s.Inv) : Inv (s.step .turn) := by
  by_cases hread : s.engine.reader = .reading
  swap
  · rwa [step, if_neg hread]
  have hclosing : Quiet s.engine { s.engine with reader := .closing } :=
    ⟨rfl, rfl, .inr (.inr ⟨.inl hread, .inl rfl⟩), by simp [hread], id⟩
  cases hget : s.engine.stream.buffer.get with
  | event event b => exact h.turn_event hread hget
  | error error =>
    have h' := h.quiet hclosing
    have hyielded := h.yielded.resolve_right fun hy => by simp [Over, hread] at hy
    rw [step, if_pos hread]
    simp only [Engine.turn, hget, Option.toList_some, flatten_singleton]
    refine { h' with
      yielded := .inr ⟨.inl rfl, error, by rw [hyielded]⟩
      batches := ?_
      handed := h'.handed.append _
      live := fun hlive => ?_
      awaiting := fun hawait => ?_ }
    · simpa [or_imp, forall_and] using h.batches
    · rw [flatten_append, flatten_singleton, ← append_assoc]
      exact congrArg (· ++ _) (h.live hlive)
    · refine (h'.awaiting hawait).imp_right (Or.imp_right fun hb => hb.imp_right ?_)
      rintro ⟨b, rest, hbatches, hb⟩
      exact ⟨b, _, by rw [hbatches]; rfl, hb⟩
  | stop => simpa [step, hread, Engine.turn, hget] using h.quiet hclosing
  | wait => simpa [step, hread, Engine.turn, hget] using h

/-! ## Calls of the client -/

/-- The acknowledged sequence is the pending one. -/
theorem Inv.request (h : s.Inv) : Inv (s.step .request) := by
  rw [step]
  split_ifs with hread
  swap
  · exact h
  have hlive : ¬s.client.Gone := fun hg => by simp [hg.1] at hread
  have hheld : s.client.Holds := ⟨hlive, by simp [hread.1], by simp [hread.1]⟩
  have hbounds := h.holds hheld
  have hprevious := h.client.previous hlive
  rw [hread.2, length_nil, add_zero] at hbounds
  have hd := le_antisymm hbounds.1 hbounds.2
  cases hq : s.client.previousSequence with
  | none =>
    exact { h with
      client := h.client.moved hlive _ _
      acks := fun q hacks => (h.acks q hacks).imp_right fun hwho =>
        hwho.elim (fun ha => by simp [ha] at hread) fun hg => absurd hg hlive
      live := fun _ => h.live hlive
      holds := fun hh => absurd rfl hh.2.2
      nonePending := fun hh => absurd rfl hh.2.2
      acknowledging := nofun
      awaiting := fun _ => ⟨hread.2, .inl hd⟩ }
  | some q =>
    rw [hq, Option.elim_some] at hprevious
    have hpending : s.engine.pendingSequence = some q := by
      cases hp : s.engine.pendingSequence with
      | none =>
        rcases h.nonePending hheld hp with ⟨-, -, -, hnil⟩ | ⟨-, -, hne⟩
        · simp [hnil] at hprevious
        · exact absurd hread.2 hne
      | some p =>
        have hlast := (h.pending p hp).1
        rw [Option.some_inj]
        omega
    exact { h with
      client := h.client.moved hlive _ _
      acks := fun p hp => ⟨hpending.trans hp, .inl rfl⟩
      live := fun _ => h.live hlive
      holds := fun hh => absurd rfl hh.2.1
      nonePending := fun hh => absurd rfl hh.2.1
      acknowledging := fun _ => ⟨rfl, hread.2, hd⟩
      awaiting := nofun }

theorem Inv.answered (h : s.Inv) {q : Nat} (hq : s.acks = some q) :
    let c := if s.client.phase = .acknowledging then { s.client with phase := .awaiting } else s.client
    Inv { s with acks := none, client := c } ∧ ¬c.Holds ∧
      (c.phase = .awaiting → c.delivered.length = s.engine.stream.sequence) := by
  intro c
  by_cases hack : s.client.phase = .acknowledging
  · have hlive : ¬s.client.Gone := fun hg => by simp [hg.1] at hack
    obtain ⟨-, hpend, hd⟩ := h.acknowledging hack
    have hc : c = { s.client with phase := .awaiting } := if_pos hack
    rw [hc]
    exact ⟨{ h with
      client := h.client.moved hlive _ _
      acks := nofun
      live := fun _ => h.live hlive
      holds := fun hh => absurd rfl hh.2.2
      nonePending := fun hh => absurd rfl hh.2.2
      acknowledging := nofun
      awaiting := fun _ => ⟨hpend, .inl hd⟩ }, fun hh => hh.2.2 rfl, fun _ => hd⟩
  · have hgone := (h.acks q hq).2.resolve_left hack
    have hc : c = s.client := if_neg hack
    rw [hc]
    exact ⟨{ h with acks := nofun, acknowledging := fun ha => absurd ha hack }, fun hh => hh.1 hgone,
      fun hawait => absurd (hgone.1.symm.trans hawait) nofun⟩

theorem Inv.acknowledge (h : s.Inv) : Inv (s.step .acknowledge) := by
  rw [step]
  cases hq : s.acks with
  | none => exact h
  | some q =>
    obtain ⟨h', hholds, hd⟩ := h.answered hq
    have hpending := (h.acks q hq).1
    cases hregistered : s.engine.registered
    · simpa [Engine.acknowledge, hregistered] using h'
    · simp only [Engine.acknowledge, hregistered, hpending, Bool.not_true, Bool.false_eq_true, if_false,
        ne_eq, not_true_eq_false]
      exact { h' with
        pending := nofun
        acks := nofun
        nonePending := fun hh => absurd hh hholds
        awaiting := fun hawait => ⟨(h'.awaiting hawait).1, .inl (hd hawait)⟩ }

theorem Inv.fetch (h : s.Inv) : Inv (s.step .fetch) := by
  rw [step]
  split_ifs with hawait
  swap
  · exact h
  match hb : s.batches with
  | [] => exact h
  | [] :: rest => exact absurd rfl (h.batches [] (hb ▸ mem_cons_self))
  | (event :: events) :: rest =>
    obtain ⟨hpend, hd⟩ := h.awaiting hawait
    have hlive : ¬s.client.Gone := fun hg => by simp [hg.1] at hawait
    have hall := h.live hlive
    rw [hpend, hb, append_nil, flatten_cons] at hall
    dsimp only
    rw [hpend, nil_append]
    refine { h with
      client := h.client.moved hlive _ _
      batches := fun b hmem => h.batches b (hb ▸ mem_cons_of_mem _ hmem)
      acks := fun q hq => ?_
      live := fun _ => by simpa using hall
      holds := fun _ => ?_
      nonePending := fun _ hnone => .inr ?_
      acknowledging := nofun
      awaiting := nofun }
    · rcases (h.acks q hq).2 with ha | hg
      · simp [ha] at hawait
      · exact absurd hg hlive
    · rcases hd with hd | ⟨-, b, rest', hb', hd⟩
      · exact ⟨hd.le, hd ▸ Nat.le_add_right _ _⟩
      · rw [hb, List.cons.injEq] at hb'
        rw [← hb'.1] at hd
        exact ⟨hd ▸ Nat.le_add_right _ _, hd.ge⟩
    · have hd' := hd.resolve_right fun hd => by
        rw [show s.engine.pendingSequence = none from hnone] at hd
        exact absurd hd.1 nofun
      refine ⟨?_, hd', cons_ne_nil _ _⟩
      by_contra hover
      have hlength := congrArg List.length hall
      rw [h.yielded.resolve_right fun hy => hover hy.1, length_numbered h.numbers] at hlength
      simp at hlength
      omega

theorem Inv.accept (h : s.Inv) (unconfirmed : Bool) : Inv (s.step (.accept unconfirmed)) := by
  rw [step]
  split_ifs with hguard
  swap
  · exact h
  have hheld : s.client.Holds := by
    rcases hguard with hread | ⟨hidle, herror, hclosed⟩
    · simp [Client.Holds, Client.Gone, hread]
    · simp_all [Client.Holds, Client.Gone]
  cases hp : s.client.pendingEvents with
  | nil => simpa [Client.accept, hp] using h
  | cons event rest =>
    rcases Client.accept_cases hp unconfirmed with ⟨hsteady, -⟩ | ⟨hnumber, hcheck, heq⟩
    · exact h.steady hsteady
    have hall := h.live hheld.1
    rw [hp] at hall
    have hbounds := h.holds hheld
    -- The event behind all numbered ones is a terminal error, which closes the client.
    have hmore : ¬(s.client.handOver unconfirmed event rest).Gone →
        s.client.delivered.length < s.engine.stream.sequence := by
      intro hlive
      by_contra hnot
      have hd := le_antisymm hbounds.1 (not_lt.mp hnot)
      rcases h.yielded with hy | ⟨-, error, hy⟩
      · have hlength := congrArg List.length hall
        rw [hy, length_numbered h.numbers] at hlength
        simp at hlength
        omega
      · rw [hy, append_assoc] at hall
        have htail := (append_inj hall (hd.trans (length_numbered h.numbers).symm)).2
        rw [cons_append, List.cons.injEq] at htail
        exact hlive (Client.gone_handOver (congrArg Prod.snd htail.1))
    rw [heq]
    refine { h with
      client := h.client.handOver hheld.1 hnumber hcheck unconfirmed
      acks := fun q hq => ?_
      handed := ?_
      live := fun hlive => ?_
      holds := fun hh => ?_
      nonePending := fun hh hnone => ?_
      acknowledging := fun hphase => by cases hphase
      awaiting := fun hphase => by cases hphase }
    · rcases (h.acks q hq).2 with ha | hg
      · exact absurd ha hheld.2.1
      · exact absurd hg hheld.1
    · have hprefix : s.client.delivered ++ [(event.1, event.2)] <+: s.yielded :=
        ⟨rest ++ s.batches.flatten, by simpa using hall⟩
      rcases event.2.returned_cases unconfirmed with hsame | ⟨error, herror, hreturned⟩
      · exact .inl (by simpa only [Client.handOver, hsame] using hprefix)
      · rw [herror] at hprefix
        exact .inr ⟨_, _, error, hprefix, by rw [Client.handOver, hreturned]⟩
    · rcases event.2.returned_cases unconfirmed with hsame | ⟨error, herror, -⟩
      · simpa [Client.handOver, hsame] using hall
      · exact absurd (Client.gone_handOver herror) hlive
    · have hlt := hmore hh.1
      simp only [hp, Client.handOver, length_append, length_cons, length_nil] at hbounds ⊢
      omega
    · have hlt := hmore hh.1
      rcases h.nonePending hheld hnone with ⟨-, -, hnil, -⟩ | ⟨-, hd, -⟩
      · simp [hp] at hnil
      · omega

theorem put_error (b : EventBuffer) (event : Event) : (b.put event).2.error = b.error := by
  rcases EventBuffer.put_cases (Prod.mk.eta (p := b.put event)).symm with
    ⟨_, -, h⟩ | ⟨-, _, _, _, _, _, -, -, h⟩ | ⟨-, -, h⟩ <;> rw [h] <;> rfl

theorem Inv.step (h : s.Inv) (a : Action) : Inv (s.step a) := by
  cases a with
  | put event =>
    refine h.quiet ⟨?_, rfl, .inl rfl, Or.imp_right Or.inl, ?_⟩ <;>
      (have herror := put_error s.engine.stream.buffer event
       simp only [Stream.step]
       split <;> rename_i hput <;> rw [hput] at herror <;> simp [← herror])
  | done => exact h.quiet ⟨rfl, rfl, .inl rfl, Or.imp_right Or.inl, id⟩
  | fail error ack =>
    exact h.quiet ⟨rfl, rfl, .inl rfl, fun _ => .inr (.inr rfl), fun _ => rfl⟩
  | start =>
    rw [System.step]
    split_ifs with hstart
    · have hnone : s.engine.pendingSequence = none := Option.eq_none_iff_forall_ne_some.mpr fun p hp =>
        (h.pending p hp).2.1 hstart.2
      have hover : ¬s.Over := by simp [Over, hstart.2]
      refine { h with
        completed := .inr (h.completed.resolve_left hover)
        yielded := .inl (h.yielded.resolve_right fun hy => hover hy.1)
        pending := fun p hp => absurd (hnone.symm.trans hp) (Option.some_ne_none p).symm
        nonePending := fun hh _ => ?_ }
      rcases h.nonePending hh hnone with ⟨hremote, -⟩ | ⟨hov, -⟩
      · simp [hstart.1] at hremote
      · exact absurd hov hover
    · exact h
  | turn => exact h.turn
  | wake =>
    rw [System.step]
    split_ifs with hwake
    · exact h.quiet ⟨rfl, rfl, .inr (.inl ⟨hwake.1, rfl⟩), fun _ => .inl hwake.2, id⟩
    · exact h
  | close =>
    rw [System.step]
    split_ifs with hclose
    · exact h.quiet ⟨rfl, rfl, .inr (.inr ⟨.inr hclose, .inr rfl⟩), fun _ => .inr (.inr rfl),
        fun _ => rfl⟩
    · exact h
  | release =>
    rw [System.step]
    split_ifs
    · exact h.quiet ⟨rfl, rfl, .inl rfl, Or.imp_right Or.inl, id⟩
    · exact h
  | acknowledge => exact h.acknowledge
  | begin => exact h.steady (Client.steady_begin _)
  | request => exact h.request
  | fetch => exact h.fetch
  | accept unconfirmed => exact h.accept unconfirmed
  | abort code => exact h.steady (Client.steady_abort _ code)
  | cancel code => exact h.steady (Client.steady_fail _ _ _ _ code).1
  | finish => exact h.steady (Client.steady_finish _)

theorem inv_init (limits : StreamLimits) (n : Nat) (logprobs : Option Nat) (chat : Bool) :
    Inv (init limits n logprobs chat) where
  client := by
    refine ⟨rfl, fun _ => rfl, fun _ => rfl, nodup_nil, rfl, nofun, rfl, nofun, ?_⟩
    intro before q after heq
    simp [init] at heq
  numbers := rfl
  completed := .inr rfl
  yielded := .inl rfl
  batches := nofun
  pending := nofun
  acks := nofun
  refused := rfl
  handed := .inl prefix_rfl
  live := fun _ => rfl
  holds := fun _ => ⟨le_rfl, le_rfl⟩
  nonePending := fun _ _ => .inl ⟨rfl, rfl, rfl, rfl⟩
  acknowledging := nofun
  awaiting := nofun

theorem inv_run (limits : StreamLimits) (n : Nat) (logprobs : Option Nat) (chat : Bool)
    (actions : List Action) : Inv (run limits n logprobs chat actions) :=
  foldlRecOn actions step (inv_init limits n logprobs chat) fun _ hs a _ => hs.step a

/-- In every run of a client against its engine, through failures and aborts, the sequence that the
client acknowledges is the pending one, and no acknowledgement is refused; the items are handed over
as they were yielded, but for a terminal error whose cleanup is unconfirmed, with the numbers from 0
on, and the number of the next one is the one that the client expects; and where `completed` is
handed over, every choice has finished once, and there was one usage event. -/
theorem acknowledgements_agree (limits : StreamLimits) (n : Nat) (logprobs : Option Nat) (chat : Bool)
    (actions : List Action) :
    let s := run limits n logprobs chat actions
    (∀ q, s.acks = some q → s.engine.pendingSequence = some q) ∧ s.refused = false ∧
    Handed s.client.delivered s.yielded ∧
    s.client.delivered.map Prod.fst = range s.client.delivered.length ∧
    (¬s.client.Gone → ∀ event rest, s.client.pendingEvents = event :: rest →
      event.1 = s.client.nextSequence) ∧ CompletedLate s.client.n s.client.delivered := by
  intro s
  have h : s.Inv := inv_run limits n logprobs chat actions
  refine ⟨fun q hq => (h.acks q hq).1, h.refused, h.handed, h.client.numbers, ?_, h.client.tally.late⟩
  intro hlive event rest hp
  have hnumbers : s.yielded.map Prod.fst = range s.yielded.length := by
    have hstream : (Engine.numbered s.engine.stream).map Prod.fst =
        range s.engine.stream.sequence := by
      rw [← h.numbers, Engine.numbered, map_map]
      rfl
    have hlength := length_numbered h.numbers
    rcases h.yielded with hy | ⟨-, error, hy⟩
    · rw [hy, hstream, hlength]
    · rw [hy, map_append, hstream, length_append, hlength, length_singleton, range_succ]
      rfl
  have hall := h.live hlive
  rw [hp, append_assoc] at hall
  have hget := congrArg (·[s.client.delivered.length]?) hnumbers
  simp only [← hall, map_append, map_cons, cons_append, length_append, length_cons] at hget
  rw [getElem?_append_right (by simp), length_map, Nat.sub_self, getElem?_cons_zero,
    getElem?_range (by omega), Option.some_inj] at hget
  exact hget.trans (h.client.next hlive).symm

end System

end ArcticPlatform.Streaming
