import ArcticPlatform.Streaming.EventBuffer
import Mathlib.Data.Int.Interval

/-!
# Streaming: the reader of a stream

An embedding of the part of `ClientStream` that reads: the fetched batches are handed
over event by event, and each event is checked first.

Main results:

- Theorem `accept_cases`: an event is handed over, or the read fails.
- Theorem `Inv.accept`: the numbers handed over, and the tally of finished choices.
-/

namespace ArcticPlatform.Streaming

open PyJson List

/-- An event of the buffer, or the error that ends the stream. -/
inductive Item where
  | event (event : Event)
  | terminalError (error : StreamError)

/-- The item that `_accept_event` returns; `unconfirmed` says that the cleanup behind a terminal
error has the status `cleanup_unconfirmed`, which replaces its code and drops its other fields. -/
def Item.returned (unconfirmed : Bool) : Item → Item
  | .event e => .event e
  | .terminalError e =>
    .terminalError (if unconfirmed then .ofCode "cleanup_unconfirmed" else e)

theorem Item.returned_cases (item : Item) (unconfirmed : Bool) :
    item.returned unconfirmed = item ∨ ∃ error, item = .terminalError error ∧
      item.returned unconfirmed = .terminalError (.ofCode "cleanup_unconfirmed") := by
  cases item with
  | event event => exact .inl rfl
  | terminalError error =>
    cases unconfirmed with
    | false => exact .inl rfl
    | true => exact .inr ⟨error, rfl, rfl⟩

/-- An item with its sequence number. -/
abbrev Numbered := Nat × Item

/-- Where the read of a client stands. -/
inductive Phase where
  | idle
  | reading
  /-- `acknowledge_stream` was called and has not returned. -/
  | acknowledging
  /-- The next batch is awaited. -/
  | awaiting
  deriving DecidableEq

/-- `ClientStream`; `delivered` records the events that were handed over. -/
structure Client where
  n : Nat
  logprobs : Option Nat
  chat : Bool
  phase : Phase
  previousSequence : Option Nat
  nextSequence : Nat
  closed : Bool
  error : Option String
  errorDelivered : Bool
  usage : Option Event
  finishedChoices : Finset Int
  pendingEvents : List Numbered
  delivered : List Numbered

/-! ## Checks -/

/-- `CONTEXT_LIMIT_SOURCES` -/
def contextLimitSources : List String := ["prompt", "completion_budget"]

/-- `PARAM_ERROR_CODES` -/
def paramErrorCodes : List String := ["invalid_message_content", "invalid_chat_request"]

/-- What is checked of a terminal error. -/
def StreamError.valid (e : StreamError) : Bool :=
  (if e.code = "context_length_exceeded" then e.contextLimitSource.any (· ∈ contextLimitSources)
    else e.contextLimitSource.isNone) && (e.param.isNone || e.code ∈ paramErrorCodes)

/-- `_valid_delta_fields` of a delta. -/
def Delta.validFields (d : Delta) (chat : Bool) : Bool :=
  match d.kind with
  | .delta => !chat
  | .contentDelta => chat && d.text.isSome
  | .reasoningDelta tokenCount => chat && 0 ≤ tokenCount
  | .toolCallDelta index _ _ => chat && 0 ≤ index && d.arguments.isSome

/-- `_valid_logprob_entry` -/
def validLogprobEntry (entry : Json) : Bool :=
  (match entry.get? "token_id", entry.get? "token" with
    | some (.int _), some (.str _) => true
    | _, _ => false) &&
  match entry.get? "logprob" with
  | some (.int _) => true
  | some (.float literal) => literal ∉ ["NaN", "Infinity", "-Infinity"]
  | _ => false

/-- `valid_delta_logprobs` -/
def Delta.validLogprobs (d : Delta) (logprobs : List Json) (topK : Nat) : Bool :=
  d.tokenIds.any fun tokenIds =>
    logprobs.length = tokenIds.length && (logprobs.zip tokenIds).all fun e =>
      validLogprobEntry e.1 &&
        match e.1.get? "token_id", e.1.get? "top" with
        | some (.int id), some (.arr top) =>
          id = e.2 && top.length ≤ topK && top.all validLogprobEntry
        | _, _ => false

namespace Client

/-- What is checked of the choice of an event. -/
def acceptsChoice (c : Client) (index : Int) : Bool :=
  0 ≤ index && index < c.n && index ∉ c.finishedChoices && c.usage.isNone

/-- A delta has logprobs exactly where they were asked for, and these are valid. -/
def acceptsLogprobs (c : Client) (d : Delta) : Bool :=
  let wantsLogprobs := d.kind matches .delta | .contentDelta
  match d.logprobs, if wantsLogprobs then c.logprobs else none with
  | some logprobs, some topK => d.validLogprobs logprobs topK
  | none, none => true
  | _, _ => false

/-- The error that `_accept_event` raises for an item, if any. -/
def check (c : Client) : Item → Option String
  | .terminalError e => if e.valid then none else some "invalid_terminal_error"
  | .event (.delta d) =>
    if c.acceptsChoice d.choiceIndex && d.validFields c.chat && c.acceptsLogprobs d then none
    else some "invalid_choice_event"
  | .event (.choiceFinished index finishReason) =>
    if c.acceptsChoice index && (c.chat || finishReason ≠ .toolCalls) then none
    else some "invalid_choice_event"
  | .event (.usage promptTokens completionTokens totalTokens reasoningTokens) =>
    if c.usage.isSome || c.finishedChoices.card ≠ c.n then some "invalid_usage_event"
    else if promptTokens < 0 || completionTokens < 0 || totalTokens < 0 ||
        totalTokens ≠ promptTokens + completionTokens ||
        reasoningTokens.any (fun r => r < 0 || completionTokens < r) then some "invalid_usage_event"
    else none
  | .event .completed => if c.usage.isNone then some "incomplete_stream" else none

/-- What `_accept_event` records of an item. -/
def record (c : Client) : Item → Client
  | .terminalError e => { c with error := some e.code, closed := true, errorDelivered := true }
  | .event (.delta _) => c
  | .event (.choiceFinished index _) => { c with finishedChoices := insert index c.finishedChoices }
  | .event (.usage p q t r) => { c with usage := some (.usage p q t r) }
  | .event .completed => { c with closed := true }

/-! ## Steps -/

/-- `abort`, up to the cleanup that it starts. -/
def abort (c : Client) (code : String) : Client :=
  if c.closed then c else { c with error := some (c.error.getD code) }

/-- The cleanup ends. -/
def finish (c : Client) : Client := if c.error.isSome then { c with closed := true } else c

/-- The read ends with an exception. -/
def fail (c : Client) (code : String) : Client := { c.abort code with phase := .idle }

/-- The next read begins. -/
def begin (c : Client) : Client :=
  if c.phase = .idle ∧ !c.errorDelivered ∧ c.error.isNone ∧ !c.closed then { c with phase := .reading }
  else c

/-- The next event of the batch is handed over, and the read ends. -/
def handOver (c : Client) (unconfirmed : Bool) (event : Numbered) (rest : List Numbered) : Client :=
  { c.record event.2 with
    phase := .idle
    pendingEvents := rest
    nextSequence := c.nextSequence + 1
    previousSequence := some event.1
    delivered := c.delivered ++ [(event.1, event.2.returned unconfirmed)] }

/-- `_accept_event` for the next event of the batch. -/
def accept (c : Client) (unconfirmed : Bool) : Client :=
  match c.pendingEvents with
  | [] => c
  | event :: rest =>
    match c.error with
    | some code => { c with pendingEvents := rest }.fail code
    | none =>
      if event.1 ≠ c.nextSequence then { c with pendingEvents := rest }.fail "invalid_event_sequence"
      else
        match c.check event.2 with
        | some code =>
          { c with
            pendingEvents := rest
            nextSequence := c.nextSequence + 1
            previousSequence := some event.1 }.fail code
        | none => c.handOver unconfirmed event rest

/-! ## What a client knows -/

/-- No read is going on and none will begin. -/
def Gone (c : Client) : Prop := c.phase = .idle ∧ (c.error.isSome ∨ c.closed = true)

/-- The client has the fetched events and no call is under way. -/
def Holds (c : Client) : Prop := ¬c.Gone ∧ c.phase ≠ .acknowledging ∧ c.phase ≠ .awaiting

end Client

/-- The choices that finished. -/
def finishes (items : List Numbered) : List Int :=
  items.filterMap fun e => match e.2 with
    | .event (.choiceFinished index _) => some index
    | _ => none

/-- The usage events. -/
def usages (items : List Numbered) : Nat :=
  items.countP fun e => e.2 matches .event (.usage _ _ _ _)

/-- The items are handed over as they were yielded, but that a terminal error at their end may have
become `cleanup_unconfirmed`. -/
def Handed (delivered yielded : List Numbered) : Prop :=
  delivered <+: yielded ∨ ∃ before q error, before ++ [(q, .terminalError error)] <+: yielded ∧
    delivered = before ++ [(q, .terminalError (.ofCode "cleanup_unconfirmed"))]

theorem Handed.append {delivered yielded : List Numbered} (h : Handed delivered yielded)
    (more : List Numbered) : Handed delivered (yielded ++ more) := by
  rcases h with hle | ⟨before, q, error, hle, hdelivered⟩
  · exact .inl (hle.trans (prefix_append _ _))
  · exact .inr ⟨before, q, error, hle.trans (prefix_append _ _), hdelivered⟩

/-- Every choice has finished once, and there was one usage event. -/
def Finished (n : Nat) (items : List Numbered) : Prop :=
  (∀ i < n, (finishes items).count (i : Int) = 1) ∧ (∀ i ∈ finishes items, 0 ≤ i ∧ i < n) ∧
    usages items = 1

/-- Where an item completes the stream, everything before it is finished. -/
def CompletedLate (n : Nat) (items : List Numbered) : Prop :=
  ∀ before q after, items = before ++ (q, .event .completed) :: after → Finished n before

/-- What a client knows of the events that were handed over. -/
structure Tally (n : Nat) (finished : Finset Int) (usage : Option Event) (items : List Numbered) :
    Prop where
  nodup : (finishes items).Nodup
  choices : (finishes items).toFinset = finished
  bounds : ∀ i ∈ finishes items, 0 ≤ i ∧ i < n
  count : usages items = if usage.isSome then 1 else 0
  full : usage.isSome → finished.card = n
  late : CompletedLate n items

section Tally

variable {n : Nat} {finished : Finset Int} {usage : Option Event} {items : List Numbered}

theorem Tally.all_finished (h : Tally n finished usage items) (husage : usage.isSome) :
    Finished n items := by
  have hall : finished = Finset.Ico 0 (n : Int) := by
    refine Finset.eq_of_subset_of_card_le (fun i hi => ?_) ?_
    · rw [← h.choices, mem_toFinset] at hi
      exact Finset.mem_Ico.mpr (h.bounds i hi)
    · rw [Int.card_Ico, h.full husage]
      simp
  refine ⟨fun i hi => count_eq_one_of_mem h.nodup ?_, h.bounds, by rw [h.count, if_pos husage]⟩
  rw [← mem_toFinset, h.choices, hall, Finset.mem_Ico]
  omega

theorem finishes_snoc (items : List Numbered) (e : Numbered) :
    finishes (items ++ [e]) = finishes items ++ finishes [e] := filterMap_append ..

theorem usages_snoc (items : List Numbered) (e : Numbered) :
    usages (items ++ [e]) = usages items + usages [e] := countP_append ..

theorem completedLate_snoc {e : Numbered} (h : CompletedLate n items)
    (he : e.2 = .event .completed → Finished n items) : CompletedLate n (items ++ [e]) := by
  intro before q after heq
  rcases eq_nil_or_concat after with rfl | ⟨after, last, rfl⟩
  · obtain ⟨rfl, hlast⟩ := append_inj' heq rfl
    cases hlast
    exact he rfl
  · rw [concat_eq_append, ← cons_append, ← append_assoc] at heq
    exact h before q after (append_inj' heq rfl).1

theorem Tally.snoc_same (h : Tally n finished usage items) {e : Numbered} {usage' : Option Event}
    (hfinishes : finishes [e] = [])
    (hcount : usages items + usages [e] = if usage'.isSome then 1 else 0)
    (hfull : usage'.isSome → finished.card = n) (he : e.2 = .event .completed → usage.isSome) :
    Tally n finished usage' (items ++ [e]) := by
  have hsame : finishes (items ++ [e]) = finishes items := by
    rw [finishes_snoc, hfinishes, append_nil]
  exact ⟨hsame ▸ h.nodup, hsame ▸ h.choices, hsame ▸ h.bounds, (usages_snoc items e).trans hcount,
    hfull, completedLate_snoc h.late fun hlast => h.all_finished (he hlast)⟩

theorem Tally.snoc_finish (h : Tally n finished usage items) {q : Nat} {index : Int}
    {reason : FinishReason} (hindex : 0 ≤ index ∧ index < n) (hfresh : index ∉ finished)
    (hnone : usage.isNone) :
    Tally n (insert index finished) usage (items ++ [(q, .event (.choiceFinished index reason))]) := by
  have hone : finishes (items ++ [(q, .event (.choiceFinished index reason))]) =
      finishes items ++ [index] := finishes_snoc _ _
  refine ⟨?_, ?_, fun i hi => ?_, (usages_snoc _ _).trans h.count, fun hsome => ?_,
    completedLate_snoc h.late nofun⟩
  · rw [← h.choices, mem_toFinset] at hfresh
    rw [hone]
    exact h.nodup.append (nodup_singleton _) (by simpa using hfresh)
  · rw [hone, toFinset_append, h.choices]
    simp
  · rw [hone, mem_append, mem_singleton] at hi
    rcases hi with hi | rfl
    · exact h.bounds i hi
    · exact hindex
  · rw [Option.isNone_iff_eq_none.mp hnone] at hsome
    cases hsome

end Tally

namespace Client

/-- What holds of every client. -/
structure Inv (c : Client) : Prop where
  numbers : c.delivered.map Prod.fst = List.range c.delivered.length
  next : ¬c.Gone → c.nextSequence = c.delivered.length
  previous : ¬c.Gone → c.previousSequence.elim 0 (· + 1) = c.delivered.length
  tally : Tally c.n c.finishedChoices c.usage c.delivered

variable {c : Client}

theorem Inv.moved (h : c.Inv) (hlive : ¬c.Gone) (phase : Phase) (pending : List Numbered) :
    Inv { c with phase := phase, pendingEvents := pending } :=
  ⟨h.numbers, fun _ => h.next hlive, fun _ => h.previous hlive, h.tally⟩

theorem Inv.tally_record (h : c.Inv) {e : Numbered} (hcheck : c.check e.2 = none)
    (unconfirmed : Bool) : Tally c.n (c.record e.2).finishedChoices (c.record e.2).usage
      (c.delivered ++ [(e.1, e.2.returned unconfirmed)]) := by
  obtain ⟨q, item⟩ := e
  cases item with
  | terminalError _ => exact h.tally.snoc_same rfl h.tally.count h.tally.full nofun
  | event event =>
    cases event with
    | delta _ => exact h.tally.snoc_same rfl h.tally.count h.tally.full nofun
    | choiceFinished index reason =>
      simp only [check, acceptsChoice, ite_eq_left_iff, reduceCtorEq, imp_false, not_not,
        Bool.and_eq_true, decide_eq_true_eq] at hcheck
      exact h.tally.snoc_finish hcheck.1.1.1 hcheck.1.1.2 hcheck.1.2
    | usage p c' t r =>
      simp only [check] at hcheck
      split_ifs at hcheck with hbad
      simp only [Bool.or_eq_true, decide_eq_true_eq, not_or, not_not] at hbad
      refine h.tally.snoc_same rfl ?_ (fun _ => hbad.2) nofun
      rw [h.tally.count, Option.not_isSome_iff_eq_none.mp hbad.1]
      rfl
    | completed =>
      simp only [check] at hcheck
      split_ifs at hcheck with hnone
      exact h.tally.snoc_same rfl h.tally.count h.tally.full fun _ => by
        simpa [Option.isSome_iff_ne_none] using hnone

/-- A step that hands nothing over and that fetches nothing. -/
structure Steady (c c' : Client) : Prop where
  delivered : c'.delivered = c.delivered
  tally : c'.n = c.n ∧ c'.finishedChoices = c.finishedChoices ∧ c'.usage = c.usage
  live : ¬c'.Gone → ¬c.Gone ∧ c'.pendingEvents = c.pendingEvents ∧
    c'.nextSequence = c.nextSequence ∧ c'.previousSequence = c.previousSequence
  phase : c'.phase = c.phase ∨ c'.Gone ∨ c.phase = .idle ∧ c'.phase = .reading
  gone : c.Gone → c'.Gone

theorem Steady.holds {c' : Client} (h : Steady c c') (hholds : c'.Holds) : c.Holds := by
  refine ⟨(h.live hholds.1).1, ?_⟩
  rcases h.phase with hsame | hgone | ⟨hidle, -⟩
  · exact hsame ▸ hholds.2
  · exact absurd hgone hholds.1
  · rw [hidle]
    exact ⟨nofun, nofun⟩

theorem Inv.steady (h : c.Inv) {c' : Client} (hs : Steady c c') : c'.Inv := by
  obtain ⟨hn, hchoices, husage⟩ := hs.tally
  refine ⟨hs.delivered ▸ h.numbers, fun hlive => ?_, fun hlive => ?_, ?_⟩
  · obtain ⟨hlive', -, hnext, -⟩ := hs.live hlive
    rw [hnext, hs.delivered, h.next hlive']
  · obtain ⟨hlive', -, -, hprevious⟩ := hs.live hlive
    rw [hprevious, hs.delivered, h.previous hlive']
  · rw [hn, hchoices, husage, hs.delivered]
    exact h.tally

theorem steady_fail (c : Client) (rest : List Numbered) (next : Nat) (previous : Option Nat)
    (code : String) :
    let c' := { c with pendingEvents := rest, nextSequence := next, previousSequence := previous }
    Steady c (c'.fail code) ∧ (c'.fail code).Gone := by
  intro c'
  have hgone : (c'.fail code).Gone := by
    refine ⟨rfl, ?_⟩
    simp only [fail, abort]
    split_ifs with hclosed
    · exact .inr hclosed
    · exact .inl rfl
  refine ⟨⟨?_, ?_, fun hlive => absurd hgone hlive, .inr (.inl hgone), fun _ => hgone⟩, hgone⟩ <;>
    (simp only [fail, abort]; split_ifs <;> simp [c'])

theorem steady_close (c : Client) {error : Option String} {closed : Bool}
    (h : c.error.isSome ∨ c.closed = true → error.isSome ∨ closed = true) :
    Steady c { c with error := error, closed := closed } :=
  ⟨rfl, ⟨rfl, rfl, rfl⟩, fun hlive => ⟨fun hg => hlive ⟨hg.1, h hg.2⟩, rfl, rfl, rfl⟩, .inl rfl,
    fun hg => ⟨hg.1, h hg.2⟩⟩

theorem steady_refl (c : Client) : Steady c c := steady_close c id

theorem steady_abort (c : Client) (code : String) : Steady c (c.abort code) := by
  rw [abort]
  split_ifs
  · exact steady_refl c
  · exact steady_close c fun _ => .inl rfl

theorem steady_finish (c : Client) : Steady c c.finish := by
  rw [finish]
  split_ifs
  · exact steady_close c fun _ => .inr rfl
  · exact steady_refl c

theorem steady_begin (c : Client) : Steady c c.begin := by
  rw [begin]
  split_ifs with h
  · have hlive : ¬c.Gone := by
      simp only [Option.isNone_iff_eq_none, Bool.not_eq_true'] at h
      simp [Gone, h]
    exact ⟨rfl, ⟨rfl, rfl, rfl⟩, fun _ => ⟨hlive, rfl, rfl, rfl⟩, .inr (.inr ⟨h.1, rfl⟩),
      fun hg => absurd hg hlive⟩
  · exact steady_refl c

/-- A terminal error ends the stream for the client. -/
theorem gone_handOver {unconfirmed : Bool} {event : Numbered} {rest : List Numbered}
    {error : StreamError} (h : event.2 = .terminalError error) :
    (c.handOver unconfirmed event rest).Gone := by
  obtain ⟨q, item⟩ := event
  cases h
  exact ⟨rfl, .inr rfl⟩

/-- An event is handed over, or the read fails. -/
theorem accept_cases {event : Numbered} {rest : List Numbered}
    (hp : c.pendingEvents = event :: rest) (unconfirmed : Bool) :
    Steady c (c.accept unconfirmed) ∧ (c.accept unconfirmed).Gone ∨
      event.1 = c.nextSequence ∧ c.check event.2 = none ∧
        c.accept unconfirmed = c.handOver unconfirmed event rest := by
  simp only [accept, hp]
  split
  · exact .inl (steady_fail c rest _ _ _)
  · split_ifs with hnumber
    · exact .inl (steady_fail c rest _ _ _)
    · split
      · exact .inl (steady_fail c rest _ _ _)
      · exact .inr ⟨not_not.mp hnumber, ‹_›, rfl⟩

theorem Inv.handOver (h : c.Inv) (hlive : ¬c.Gone) {event : Numbered} {rest : List Numbered}
    (hnumber : event.1 = c.nextSequence) (hcheck : c.check event.2 = none) (unconfirmed : Bool) :
    (c.handOver unconfirmed event rest).Inv := by
  have hnext := h.next hlive
  refine ⟨?_, fun _ => ?_, fun _ => ?_, ?_⟩
  · simp [Client.handOver, h.numbers, hnumber, hnext, range_succ]
  · simp [Client.handOver, hnext]
  · simp [Client.handOver, hnumber, hnext]
  · have htally := h.tally_record hcheck unconfirmed
    have hn : (c.record event.2).n = c.n := by
      rcases event with ⟨_, event | _⟩
      · cases event <;> rfl
      · rfl
    simp only [Client.handOver, hn]
    exact htally

end Client

end ArcticPlatform.Streaming
