import ArcticPlatform.Library.Results
import Mathlib.Data.List.DropRight
import Mathlib.Data.List.GetD

/-!
# Chat output

A stream turns the deltas of the engine into events.  A parser may hold back text that
it is still matching; the deltas that emitted nothing are kept, and a content event
carries the tokens of its own delta and of the kept deltas whose text its content
repeats.

The parser is any function of what it was given: its answers are inputs of the model.
-/

namespace ArcticPlatform.Chat

open Results

/-- A text, as its characters. -/
abbrev Text := List Char

/-! ## Log-probabilities of a delta -/

/-- What a stream raises. -/
inductive Error where
  | invalidEngineOutput
  | engineAborted
  deriving DecidableEq

/-- The engine's log-probability of a token at a position. -/
structure Logprob (φ : Type) where
  rank : Option Int
  logprob : φ
  decodedToken : Option Text

/-- `_logprob_entry`. -/
structure LogprobEntry (τ φ : Type) where
  tokenId : τ
  token : Text
  logprob : φ

/-- The entry of a token and the best alternatives. -/
structure TokenEntry (τ φ : Type) where
  chosen : LogprobEntry τ φ
  top : List (LogprobEntry τ φ)

section

variable {τ φ : Type} [DecidableEq τ]

/-- `_logprob_entry`: `jsonFloat` is the number that stands for one that JSON does not have. -/
def logprobEntry (jsonFloat : φ → φ) (item : τ × Logprob φ) : LogprobEntry τ φ :=
  ⟨item.1, item.2.decodedToken.getD [], jsonFloat item.2.logprob⟩

/-- The entry of one token. -/
def tokenEntry (jsonFloat : φ → φ) (topK : Int) (tokenId : τ) (position : List (τ × Logprob φ)) :
    Except Error (TokenEntry τ φ) :=
  match position.find? fun item => item.1 = tokenId with
  | none => .error .invalidEngineOutput
  | some item =>
    let top := (position.filter fun item => item.2.rank.any (· ≤ topK)).mergeSort
      fun a b => a.2.rank.getD 0 ≤ b.2.rank.getD 0
    .ok ⟨logprobEntry jsonFloat item, top.map (logprobEntry jsonFloat)⟩

/-- `delta_logprobs`: one entry for every token. -/
def deltaLogprobs (jsonFloat : φ → φ) (topK : Int) (tokenIds : List τ)
    (positions : Option (List (List (τ × Logprob φ)))) : Except Error (List (TokenEntry τ φ)) :=
  match positions with
  | none => .error .invalidEngineOutput
  | some positions =>
    if positions.length ≠ tokenIds.length then .error .invalidEngineOutput
    else (tokenIds.zip positions).mapM fun p => tokenEntry jsonFloat topK p.1 p.2

/-! ## Events -/

/-- The function of a tool call. -/
structure ToolFunction where
  name : Option Text
  arguments : Option Text

/-- A tool call of a parser's answer. -/
structure ToolCall where
  index : Nat
  id : Option Text
  function : Option ToolFunction

/-- A parser's answer to a delta. -/
structure Message where
  content : Option Text
  reasoning : Option Text
  toolCalls : List ToolCall

/-- What the parser says about a delta: its answer and, where it can split one, the content tokens of
a delta that ends reasoning. -/
structure Reply (τ : Type) where
  message : Option Message
  contentTokenIds : Option (List τ)

/-- The events of a stream.  Content carries its tokens and their log-probabilities when these were
requested. -/
inductive Event (τ ε : Type) where
  | reasoningDelta (choiceIndex : Nat) (tokenCount : Int)
  | contentDelta (choiceIndex : Nat) (text : Text) (tokens : Option (List τ × List ε))
  | toolCallDelta (choiceIndex index : Nat) (id name : Option Text) (arguments : Text)
  | choiceFinished (choiceIndex : Nat) (finishReason : String)

/-- A delta of a choice. -/
structure Delta (τ ε : Type) where
  text : Text
  tokenIds : List τ
  finished : Bool
  logprobs : Option (List ε)

/-- A delta that emitted nothing. -/
structure Held (τ ε : Type) where
  text : Text
  tokenIds : List τ
  logprobs : List ε

/-- The state of a choice. -/
structure Choice (τ ε : Type) where
  hasParser : Bool
  tokenIds : List τ
  calledTools : Bool
  held : List (Held τ ε)

/-- What a request fixes. -/
structure Rendered where
  parallelToolCalls : Option Bool
  namedToolChoice : Bool

variable {ε : Type}

/-! ## Released deltas -/

/-- The deltas, from the newest on, whose texts end what comes before. -/
def releaseFrom : Text → List (Held τ ε) → List (Held τ ε)
  | _, [] => []
  | before, held :: older =>
    if held.text <:+ before then
      held :: releaseFrom (before.take (before.length - held.text.length)) older
    else []

/-- The held deltas that a content releases. -/
def released (content deltaText : Text) (held : List (Held τ ε)) : List (Held τ ε) :=
  if deltaText <:+ content then
    (releaseFrom (content.take (content.length - deltaText.length)) held.reverse).reverse
  else []

/-- `_content`. -/
def contentEvent (index : Nat) (held : List (Held τ ε)) (content deltaText : Text) (tokenIds : List τ)
    (logprobs : Option (List ε)) : Event τ ε :=
  .contentDelta index content (logprobs.map fun logprobs =>
    let released := released content deltaText held
    (released.flatMap (·.tokenIds) ++ tokenIds, released.flatMap (·.logprobs) ++ logprobs))

/-- `_parse`: the events of a delta, and whether it calls a tool. -/
def parse (rendered : Rendered) (index : Nat) (choice : Choice τ ε) (delta : Delta τ ε) (reply : Reply τ) :
    List (Event τ ε) × Bool :=
  let content text := contentEvent index choice.held text delta.text delta.tokenIds delta.logprobs
  if choice.hasParser = false then (if delta.text ≠ [] then [content delta.text] else [], false)
  else
    match reply.message with
    | none => ([], false)
    | some message =>
      let toolCalls := message.toolCalls.filter fun call =>
        rendered.parallelToolCalls ≠ some false ∨ call.index = 0
      let contentText := message.content.getD []
      let tokenCount : Int :=
        if contentText ≠ [] ∨ toolCalls ≠ [] then
          -- the delta that ends reasoning, when the parser can split it
          delta.tokenIds.length - (reply.contentTokenIds.map List.length).getD 0
        else delta.tokenIds.length
      let reasoning :=
        if message.reasoning.getD [] ≠ [] then [.reasoningDelta index tokenCount] else []
      (reasoning ++ (if contentText ≠ [] then [content contentText] else []) ++
          toolCalls.map fun call =>
            .toolCallDelta index call.index call.id (call.function.bind (·.name))
              ((call.function.bind (·.arguments)).getD []), !toolCalls.isEmpty)

/-- `ChatOutput.events`, for the choice of a delta. -/
def Choice.events (rendered : Rendered) (index : Nat) (choice : Choice τ ε) (delta : Delta τ ε)
    (reply : Reply τ) : Choice τ ε × List (Event τ ε) :=
  let (events, called) := parse rendered index choice delta reply
  let held :=
    match delta.logprobs with
    | none => choice.held
    | some logprobs =>
      if events ≠ [] then []
      else if delta.finished = false then choice.held ++ [⟨delta.text, delta.tokenIds, logprobs⟩]
      else choice.held
  (⟨choice.hasParser, choice.tokenIds ++ delta.tokenIds, choice.calledTools || called, held⟩, events)

/-- `ChatOutput.finish_reason`. -/
def finishReason (rendered : Rendered) (choice : Choice τ ε) (reason : String) : String :=
  if reason = "stop" ∧ choice.calledTools ∧ rendered.namedToolChoice = false then "tool_calls"
  else reason

/-! ## The stream -/

/-- The engine's output for a choice, with what the parser says about it. -/
structure EngineOutput (τ φ : Type) where
  index : Nat
  text : Text
  tokenIds : List τ
  positions : Option (List (List (τ × Logprob φ)))
  finishReason : Option String
  reply : Reply τ

/-- The parameters of a stream. -/
structure Params where
  maxTokens : Nat
  logprobs : Option Int

/-- The state of a stream. -/
structure Stream (τ φ : Type) where
  counts : List Nat
  finished : List Nat
  chat : List (Choice τ (TokenEntry τ φ))
  buffer : List (Event τ (TokenEntry τ φ))

/-- A stream of `n` choices before the first output. -/
def Stream.start (n : Nat) (hasParser : Bool) : Stream τ φ :=
  ⟨List.replicate n 0, [], List.replicate n ⟨hasParser, [], false, []⟩, []⟩

/-- The log-probabilities of an output, when they were requested. -/
def outputLogprobs (jsonFloat : φ → φ) (params : Params) (output : EngineOutput τ φ) :
    Except Error (Option (List (TokenEntry τ φ))) :=
  match params.logprobs with
  | none => .ok none
  | some topK => some <$> deltaLogprobs jsonFloat topK output.tokenIds output.positions

/-- One output of the loop of `produce`. -/
def Stream.step (rendered : Rendered) (jsonFloat : φ → φ) (params : Params) (s : Stream τ φ)
    (output : EngineOutput τ φ) : Except Error (Stream τ φ) :=
  let index := output.index
  match s.chat[index]? with
  | none => .error .invalidEngineOutput
  | some choice =>
    let count := s.counts.getD index 0 + output.tokenIds.length
    if index ∈ s.finished ∨ params.maxTokens < count then .error .invalidEngineOutput
    else if output.finishReason.any fun reason => reason ≠ "stop" ∧ reason ≠ "length" then
      .error .engineAborted
    else do
      let logprobs ← outputLogprobs jsonFloat params output
      let (choice, events) := choice.events rendered index
        ⟨output.text, output.tokenIds, output.finishReason.isSome, logprobs⟩ output.reply
      let (finished, closing) :=
        match output.finishReason with
        | some reason => (index :: s.finished, [.choiceFinished index (finishReason rendered choice reason)])
        | none => (s.finished, [])
      return ⟨s.counts.set index count, finished, s.chat.set index choice, s.buffer ++ events ++ closing⟩

/-- The loop of `produce` over the engine's outputs. -/
def produce (rendered : Rendered) (jsonFloat : φ → φ) (params : Params) (n : Nat) (hasParser : Bool)
    (outputs : List (EngineOutput τ φ)) : Except Error (Stream τ φ) :=
  outputs.foldlM (Stream.step rendered jsonFloat params) (Stream.start n hasParser)

end

end ArcticPlatform.Chat
