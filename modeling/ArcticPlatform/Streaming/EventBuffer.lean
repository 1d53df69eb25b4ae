import ArcticPlatform.Library.Json

/-!
# Streaming: events and the event buffer

An embedding of `EventBuffer`, the buffer between the producer of a stream
and its reader, and of the numbering that `stream_events` gives to what
leaves it.

The buffer holds a delta in two places: in the deque of the undelivered events
and, as the newest delta of its choice, in the table of the open deltas.  A merge
changes the shared entry in place, and a pop asks whether two references are the
same object.  The model has therefore a heap of entries, and the deque and the
table hold references into it.
-/

namespace ArcticPlatform.Streaming

open PyJson

/-! ## Events -/

/-- `DELTA_TYPES`, with the fields that only one type of delta has. -/
inductive DeltaKind where
  | delta
  | contentDelta
  | reasoningDelta (tokenCount : Int)
  | toolCallDelta (index : Int) (id name : Option String)
  deriving DecidableEq

/-- `MERGED_KEYS`. -/
inductive MergedKey where
  | text
  | arguments
  | tokenIds
  | logprobs

namespace MergedKey

/-- Spelling of a key. -/
def name : MergedKey → String
  | .text => "text"
  | .arguments => "arguments"
  | .tokenIds => "token_ids"
  | .logprobs => "logprobs"

/-- `MERGED_KEYS` in their order. -/
def all : List MergedKey := [.text, .arguments, .tokenIds, .logprobs]

end MergedKey

/-- A delta event; a field that the event does not have is `none`. -/
structure Delta where
  choiceIndex : Int
  kind : DeltaKind
  text : Option String
  arguments : Option String
  tokenIds : Option (List Int)
  logprobs : Option (List Json)

/-- `FINISH_REASONS`. -/
inductive FinishReason where
  | stop
  | length
  | toolCalls
  deriving DecidableEq

/-- Spelling of a finish reason. -/
def FinishReason.name : FinishReason → String
  | .stop => "stop"
  | .length => "length"
  | .toolCalls => "tool_calls"

/-- The events that a producer puts into the buffer of its stream. -/
inductive Event where
  | delta (d : Delta)
  | choiceFinished (choiceIndex : Int) (finishReason : FinishReason)
  | usage (promptTokens completionTokens totalTokens : Int) (reasoningTokens : Option Int)
  | completed

/-- `delta[key]`, when the delta has the key. -/
def Delta.get (d : Delta) : MergedKey → Option Json
  | .text => d.text.map .str
  | .arguments => d.arguments.map .str
  | .tokenIds => d.tokenIds.map fun ids => .arr (ids.map .int)
  | .logprobs => d.logprobs.map .arr

/-- `event["type"]` of a delta. -/
def DeltaKind.type : DeltaKind → String
  | .delta => "delta"
  | .contentDelta => "content_delta"
  | .reasoningDelta _ => "reasoning_delta"
  | .toolCallDelta _ _ _ => "tool_call_delta"

/-- The members that only one type of delta has. -/
def DeltaKind.members : DeltaKind → List (String × Json)
  | .delta => []
  | .contentDelta => []
  | .reasoningDelta tokenCount => [("token_count", .int tokenCount)]
  | .toolCallDelta index id name =>
    ("index", .int index) :: ((id.map fun id => ("id", .str id)).toList ++
      (name.map fun name => ("name", .str name)).toList)

/-- The dictionary of a delta. -/
def Delta.members (d : Delta) : List (String × Json) :=
  [("type", .str d.kind.type), ("choice_index", .int d.choiceIndex)] ++ d.kind.members ++
    MergedKey.all.filterMap fun key => (d.get key).map fun v => (key.name, v)

/-- The dictionary of an event. -/
def Event.members : Event → List (String × Json)
  | .delta d => d.members
  | .choiceFinished choiceIndex finishReason =>
    [("type", .str "choice_finished"), ("choice_index", .int choiceIndex),
      ("finish_reason", .str finishReason.name)]
  | .usage promptTokens completionTokens totalTokens reasoningTokens =>
    [("type", .str "usage"), ("prompt_tokens", .int promptTokens),
      ("completion_tokens", .int completionTokens), ("total_tokens", .int totalTokens)] ++
      (reasoningTokens.map fun n => ("reasoning_tokens", .int n)).toList
  | .completed => [("type", .str "completed")]

/-- `event.get("choice_index")`. -/
def Event.choiceIndex : Event → Option Int
  | .delta d => some d.choiceIndex
  | .choiceFinished choiceIndex _ => some choiceIndex
  | .usage _ _ _ _ => none
  | .completed => none

/-! ## Sizes -/

/-- `_compact`. -/
def compact (v : Json) : List Char := dumps .compact v

/-- `event_size`. -/
def eventSize (event : Event) : Int := (compact (.obj event.members)).length

/-- Truth value of a JSON value. -/
def truthy : Json → Bool
  | .null => false
  | .bool b => b
  | .int n => n ≠ 0
  | .float literal => literal ∉ ["0.0", "-0.0"]
  | .str s => s ≠ ""
  | .arr items => !items.isEmpty
  | .obj members => !members.isEmpty

/-- `_appended_size`: bytes that appending `added[key]` to `old[key]` adds to `old`. -/
def appendedSize (old added : Delta) (key : MergedKey) : Int :=
  match added.get key with
  | none => 0
  | some v =>
    let part := compact v
    match old.get key with
    | none => (",\"".length + key.name.length + "\":".length : Int) + part.length
    | some o =>
      match v with
      | .str _ => (part.length : Int) - 2
      | _ => if truthy v then (part.length : Int) - 2 + (if truthy o then 1 else 0) else 0

/-! ## The buffer -/

/-- The limits that the buffer reads. -/
structure StreamLimits where
  maxBufferEvents : Nat
  maxBufferBytes : Int
  maxEventBytes : Int

/-- `StreamError`. -/
structure StreamError where
  code : String
  contextLimitSource : Option String
  param : Option String
  deriving DecidableEq

/-- `StreamError(code)`. -/
def StreamError.ofCode (code : String) : StreamError := ⟨code, none, none⟩

/-- An entry `[event, size]` of the buffer. -/
structure Entry where
  event : Event
  size : Int

/-- `EventBuffer`.  `heap` has the entries made so far under the references below `next`; `events`
and `openDeltas` hold references. -/
structure EventBuffer where
  limits : StreamLimits
  heap : Nat → Entry
  next : Nat
  events : List Nat
  bytes : Int
  peakBytes : Int
  peakEvents : Nat
  error : Option StreamError
  done : Bool
  openDeltas : Int → Option Nat

namespace EventBuffer

/-- `EventBuffer(limits)`. -/
def init (limits : StreamLimits) : EventBuffer where
  limits := limits
  heap := fun _ => ⟨.completed, 0⟩
  next := 0
  events := []
  bytes := 0
  peakBytes := 0
  peakEvents := 0
  error := none
  done := false
  openDeltas := fun _ => none

/-- The undelivered events, oldest first. -/
def buffered (b : EventBuffer) : List Event := b.events.map fun i => (b.heap i).event

end EventBuffer

/-- `merged[key]`: the two values one after the other, where one of the deltas has the key. -/
def joinField {α : Type} [Append α] (empty : α) (old added : Option α) : Option α :=
  if old.isSome || added.isSome then some (old.getD empty ++ added.getD empty) else none

/-- The kind of the merged delta: `none` where the deltas are of different types, or where a tool
call's delta does not continue the call of the first one. -/
def mergedKind : DeltaKind → DeltaKind → Option DeltaKind
  | .delta, .delta => some .delta
  | .contentDelta, .contentDelta => some .contentDelta
  | .reasoningDelta old, .reasoningDelta added => some (.reasoningDelta (old + added))
  | .toolCallDelta oldIndex oldId oldName, .toolCallDelta index id name =>
    if oldIndex ≠ index || id.isSome || name.isSome then none
    else some (.toolCallDelta oldIndex oldId oldName)
  | _, _ => none

/-- `merged`: a delta with the content of `added` behind its own. -/
def Delta.merged (old added : Delta) (kind : DeltaKind) : Delta where
  choiceIndex := old.choiceIndex
  kind := kind
  text := joinField "" old.text added.text
  arguments := joinField "" old.arguments added.arguments
  tokenIds := joinField [] old.tokenIds added.tokenIds
  logprobs := joinField [] old.logprobs added.logprobs

/-- Bytes that a new token count adds. -/
def kindGrowth : DeltaKind → DeltaKind → Int
  | .reasoningDelta old, .reasoningDelta new => (dumpsInt new).length - (dumpsInt old).length
  | _, _ => 0

namespace EventBuffer

/-- The entry at `i` is changed in place. -/
def replaced (b : EventBuffer) (i : Nat) (entry : Entry) : EventBuffer :=
  let bytes := b.bytes + (entry.size - (b.heap i).size)
  { b with
    bytes := bytes
    heap := Function.update b.heap i entry
    peakBytes := max b.peakBytes bytes }

/-- `_merge`: whether the delta was appended to the open delta of its choice. -/
def merge (b : EventBuffer) (event : Delta) : Except StreamError Bool × EventBuffer :=
  match b.openDeltas event.choiceIndex with
  | none => (.ok false, b)
  | some i =>
    let entry := b.heap i
    match entry.event with
    | .delta old =>
      match mergedKind old.kind event.kind with
      | none => (.ok false, b)
      | some kind =>
        let size := entry.size + kindGrowth old.kind kind +
          (MergedKey.all.map (appendedSize old event)).sum
        if size > b.limits.maxEventBytes then (.ok false, b)
        else if b.bytes - entry.size + size > b.limits.maxBufferBytes then
          (.error (.ofCode "buffer_overflow"), b)
        else (.ok true, b.replaced i ⟨.delta (old.merged event kind), size⟩)
    -- The type of an open event that is no delta differs from that of a delta.
    | _ => (.ok false, b)

/-- A new entry at the end of the deque: a delta opens its choice, another event of a choice closes
it, and an event of no choice closes all of them. -/
def appended (b : EventBuffer) (entry : Entry) : EventBuffer :=
  let events := b.events ++ [b.next]
  let bytes := b.bytes + entry.size
  { b with
    heap := Function.update b.heap b.next entry
    next := b.next + 1
    events := events
    openDeltas :=
      match entry.event with
      | .delta d => Function.update b.openDeltas d.choiceIndex (some b.next)
      | .choiceFinished choiceIndex _ => Function.update b.openDeltas choiceIndex none
      | _ => fun _ => none
    bytes := bytes
    peakBytes := max b.peakBytes bytes
    peakEvents := max b.peakEvents events.length }

/-- The part of `put` behind the merge. -/
def append (b : EventBuffer) (event : Event) : Except StreamError Unit × EventBuffer :=
  let size := eventSize event
  if size > b.limits.maxEventBytes then (.error (.ofCode "event_too_large"), b)
  else if b.events.length ≥ b.limits.maxBufferEvents ∨ b.bytes + size > b.limits.maxBufferBytes then
    (.error (.ofCode "buffer_overflow"), b)
  else (.ok (), b.appended ⟨event, size⟩)

/-- `put`. -/
def put (b : EventBuffer) (event : Event) : Except StreamError Unit × EventBuffer :=
  match event with
  | .delta d =>
    match b.merge d with
    | (.error e, b') => (.error e, b')
    | (.ok true, b') => (.ok (), b')
    | (.ok false, b') => b'.append event
  | _ => b.append event

/-- The open deltas without the entry at `i`, of which the choice is given. -/
def closed (openDeltas : Int → Option Nat) (choice : Option Int) (i : Nat) : Int → Option Nat :=
  match choice with
  | none => openDeltas
  | some c => if openDeltas c = some i then Function.update openDeltas c none else openDeltas

/-- `_pop`; the deque of a pop is not empty. -/
def pop (b : EventBuffer) : Option (Event × EventBuffer) :=
  match b.events with
  | [] => none
  | i :: rest =>
    let entry := b.heap i
    some (entry.event, { b with
        events := rest
        bytes := b.bytes - entry.size
        openDeltas := closed b.openDeltas entry.event.choiceIndex i })

/-- `fail`. -/
def fail (b : EventBuffer) (error : StreamError) : EventBuffer :=
  { b with
    error := some (b.error.getD error)
    events := []
    openDeltas := fun _ => none
    bytes := 0 }

/-- The loop of `drain`; it takes at most as many events as the first argument says. -/
def drainLoop : Nat → EventBuffer → List Event × EventBuffer
  | 0, b => ([], b)
  | n + 1, b =>
    if b.error.isSome then ([], b)
    else
      match b.pop with
      | none => ([], b)
      | some (event, b') => (event :: (drainLoop n b').1, (drainLoop n b').2)

/-- `drain`: every event already buffered. -/
def drain (b : EventBuffer) : List Event × EventBuffer := drainLoop b.events.length b

/-- What a call of `get` comes to in a given state. -/
inductive GetResult where
  | event (event : Event) (b : EventBuffer)
  | error (error : StreamError)
  | stop
  | wait

/-- `get`, up to the point where it has to wait. -/
def get (b : EventBuffer) : GetResult :=
  match b.error with
  | some error => .error error
  | none =>
    match b.pop with
    | some (event, b') => .event event b'
    | none => if b.done then .stop else .wait

end EventBuffer

/-! ## Numbering -/

/-- A stream: its buffer, and the local variables of `stream_events`.  `accepted` and `popped` record
the events that were put and that have left, `delivered` what the reader was handed. -/
structure Stream where
  buffer : EventBuffer
  sequence : Nat
  completed : Bool
  accepted : List Event
  popped : List Event
  delivered : List (Nat × Event)

namespace Stream

/-- A new stream. -/
def init (limits : StreamLimits) : Stream where
  buffer := EventBuffer.init limits
  sequence := 0
  completed := false
  accepted := []
  popped := []
  delivered := []

/-- Number an event that left the buffer; nothing is handed over behind `completed`. -/
def number (s : Stream) (event : Event) : Stream :=
  if s.completed then s
  else
    { s with
      delivered := s.delivered ++ [(s.sequence, event)]
      sequence := s.sequence + 1
      completed := event matches .completed }

/-- A step of the producer or of the reader. -/
inductive Op where
  | put (event : Event)
  | pop

/-- One step; a put that raises is not counted as accepted, and a pop of an empty buffer waits. -/
def step (s : Stream) : Op → Stream
  | .put event =>
    match s.buffer.put event with
    | (.ok (), b) => { s with buffer := b, accepted := s.accepted ++ [event] }
    | (.error _, b) => { s with buffer := b }
  | .pop =>
    match s.buffer.pop with
    | none => s
    | some (event, b) => { s with buffer := b, popped := s.popped ++ [event] }.number event

/-- A run from a new stream. -/
def run (limits : StreamLimits) (ops : List Op) : Stream := ops.foldl step (init limits)

/-- A turn of the loop of `stream_events`: the next event, with everything already buffered behind
it. -/
def nextBatch (s : Stream) : Stream :=
  match s.buffer.get with
  | .event event b =>
    let events := event :: b.drain.1
    events.foldl number { s with buffer := b.drain.2, popped := s.popped ++ events }
  | _ => s

end Stream

end ArcticPlatform.Streaming
