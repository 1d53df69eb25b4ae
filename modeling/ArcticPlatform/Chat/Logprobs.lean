import ArcticPlatform.Chat.Output

/-!
# Log-probabilities of chat content

Every token of a choice is reported in at most one content event, in the order of the
engine, and an event has as many log-probabilities as tokens.  Without a parser every
token is reported up to the last delta with text.

Main results:

- Theorem `length_deltaLogprobs`: a delta has one entry for every token.
- Theorem `events_reported`: what a delta reports and what it leaves held.
- Theorem `events_noParser`: what a delta reports when there is no parser.
- Theorem `chat_logprobs`: the events of a whole stream.
-/

namespace ArcticPlatform.Chat

open Results List Option

variable {τ φ ε : Type}

/-! ## What is reported -/

/-- The tokens that an event reports for a choice, with their log-probabilities. -/
def Event.reported (i : Nat) : Event τ ε → List (τ × ε)
  | .contentDelta j _ (some tokens) => if j = i then tokens.1.zip tokens.2 else []
  | _ => []

/-- The text that an event adds to a choice. -/
def Event.contentText (i : Nat) : Event τ ε → Text
  | .contentDelta j text _ => if j = i then text else []
  | _ => []

/-- A content event has equally many tokens and log-probabilities. -/
def Event.Paired : Event τ ε → Prop
  | .contentDelta _ _ tokens => ∃ p, tokens = some p ∧ p.1.length = p.2.length
  | _ => True

/-- The tokens of held deltas, with their log-probabilities. -/
def heldTokens (held : List (Held τ ε)) : List (τ × ε) :=
  held.flatMap fun h => h.tokenIds.zip h.logprobs

@[simp] theorem heldTokens_nil : heldTokens ([] : List (Held τ ε)) = [] := rfl

@[simp] theorem heldTokens_append (held newer : List (Held τ ε)) :
    heldTokens (held ++ newer) = heldTokens held ++ heldTokens newer := flatMap_append

/-- Held deltas with as many log-probabilities as tokens. -/
def PairedHeld (held : List (Held τ ε)) : Prop := ∀ h ∈ held, h.tokenIds.length = h.logprobs.length

/-- The entries of the tokens of a delta are one for each. -/
theorem length_deltaLogprobs [DecidableEq τ] {jsonFloat : φ → φ} {topK : Int} {tokenIds : List τ}
    {positions : Option (List (List (τ × Logprob φ)))} {entries : List (TokenEntry τ φ)}
    (h : deltaLogprobs jsonFloat topK tokenIds positions = .ok entries) :
    entries.length = tokenIds.length := by
  cases positions with
  | none => cases h
  | some positions =>
    simp only [deltaLogprobs] at h
    split at h
    · cases h
    · next hlength =>
      have hall := (mapM_eq_ok.mp h).length_eq
      rw [length_zip, not_not.mp hlength, Nat.min_self] at hall
      exact hall.symm

/-! ## Released deltas -/

theorem releaseFrom_prefix (before : Text) (held : List (Held τ ε)) : releaseFrom before held <+: held := by
  induction held generalizing before with
  | nil => exact prefix_refl _
  | cons h older ih =>
    rw [releaseFrom]
    split
    · exact (prefix_cons_inj h).mpr (ih _)
    · exact nil_prefix

theorem released_suffix (content deltaText : Text) (held : List (Held τ ε)) :
    released content deltaText held <:+ held := by
  rw [released]
  split
  · rw [← reverse_reverse held, reverse_suffix, reverse_reverse]
    exact releaseFrom_prefix _ _
  · exact nil_suffix

variable {held : List (Held τ ε)}

theorem released_self (text : Text) (hheld : ∀ h ∈ held, h.text = []) :
    released text text held = held := by
  have key : ∀ l : List (Held τ ε), (∀ h ∈ l, h.text = []) → releaseFrom [] l = l := by
    intro l hl
    induction l with
    | nil => rfl
    | cons h older ih =>
      have hempty : h.text = [] := hl h mem_cons_self
      rw [releaseFrom, hempty, if_pos (nil_suffix), take_nil,
        ih fun h' hh' => hl h' (mem_cons_of_mem _ hh')]
  rw [released, if_pos (suffix_refl text), Nat.sub_self, take_zero,
    key held.reverse fun h hh => hheld h (mem_reverse.mp hh), reverse_reverse]

theorem zip_flatMap (h : PairedHeld held) :
    (held.flatMap (·.tokenIds)).zip (held.flatMap (·.logprobs)) = heldTokens held ∧
      (held.flatMap (·.tokenIds)).length = (held.flatMap (·.logprobs)).length := by
  induction held with
  | nil => exact ⟨rfl, rfl⟩
  | cons d rest ih =>
    have hd := h d mem_cons_self
    obtain ⟨hzip, hlength⟩ := ih fun h' hh' => h h' (mem_cons_of_mem _ hh')
    constructor
    · rw [flatMap_cons, flatMap_cons, zip_append hd, hzip]
      rfl
    · rw [flatMap_cons, flatMap_cons, length_append, length_append, hd, hlength]

variable {logprobs : List ε}

theorem contentEvent_reported (index : Nat) {tokenIds : List τ} (content text : Text)
    (hheld : PairedHeld held) (hlength : tokenIds.length = logprobs.length) :
    (contentEvent index held content text tokenIds (some logprobs)).reported index =
        heldTokens (released content text held) ++ tokenIds.zip logprobs ∧
      (contentEvent index held content text tokenIds (some logprobs)).Paired := by
  have hreleased : PairedHeld (released content text held) :=
    fun h hh => hheld h ((released_suffix content text held).mem hh)
  obtain ⟨hzip, hsame⟩ := zip_flatMap hreleased
  constructor
  · simp only [contentEvent, Event.reported, map_some, if_true]
    rw [zip_append hsame, hzip]
  · exact ⟨_, rfl, by simp only [length_append, hsame, hlength]⟩

/-! ## The events of a delta -/

/-- Events that are not content. -/
def Event.Other (e : Event τ ε) : Prop := ∀ i, e.reported i = [] ∧ e.contentText i = [] ∧ e.Paired

theorem Event.other_of_ne {e : Event τ ε} (h : ∀ i text tokens, e ≠ .contentDelta i text tokens) : e.Other := by
  intro i
  cases e with
  | contentDelta j text tokens => exact absurd rfl (h j text tokens)
  | _ => exact ⟨rfl, rfl, trivial⟩

theorem parse_events (rendered : Rendered) (index : Nat) (choice : Choice τ ε) (delta : Delta τ ε)
    (reply : Reply τ) :
    ∃ before content after, (parse rendered index choice delta reply).1 = before ++ content ++ after ∧
      (∀ e ∈ before ++ after, e.Other) ∧ (content = [] ∨ ∃ text,
        content = [contentEvent index choice.held text delta.text delta.tokenIds delta.logprobs]) := by
  rw [parse]
  split
  · by_cases htext : delta.text ≠ []
    · simp only [if_pos htext]
      exact ⟨[], [_], [], rfl, by simp, .inr ⟨_, rfl⟩⟩
    · simp only [if_neg htext]
      exact ⟨[], [], [], rfl, by simp, .inl rfl⟩
  · split
    · exact ⟨[], [], [], rfl, by simp, .inl rfl⟩
    · refine ⟨_, _, _, rfl, ?_, ?_⟩
      · intro e he
        apply Event.other_of_ne
        rintro i text tokens rfl
        rcases mem_append.mp he with he | he
        · split at he
          · simp at he
          · simp at he
        · simp at he
      · split
        · exact .inr ⟨_, rfl⟩
        · exact .inl rfl

theorem flatMap_other {events : List (Event τ ε)} (h : ∀ e ∈ events, e.Other) (i : Nat) :
    events.flatMap (Event.reported i) = [] ∧ events.flatMap (Event.contentText i) = [] :=
  ⟨flatMap_eq_nil_iff.mpr fun e he => (h e he i).1,
    flatMap_eq_nil_iff.mpr fun e he => (h e he i).2.1⟩

/-- What a delta reports and what it leaves held are among the held tokens and its own. -/
theorem events_reported (rendered : Rendered) (index : Nat) (choice : Choice τ ε)
    (delta : Delta τ ε) (reply : Reply τ) (hlogprobs : delta.logprobs = some logprobs)
    (hlength : delta.tokenIds.length = logprobs.length) (hheld : PairedHeld choice.held) :
    let next := choice.events rendered index delta reply
    PairedHeld next.1.held ∧ (∀ e ∈ next.2, e.Paired) ∧
      (∀ i, i ≠ index → next.2.flatMap (Event.reported i) = [] ∧ next.2.flatMap (Event.contentText i) = []) ∧
      (next.2.flatMap (Event.reported index) ++ heldTokens next.1.held).Sublist
        (heldTokens choice.held ++ delta.tokenIds.zip logprobs) := by
  obtain ⟨before, content, after, hevents, hother, hcontent⟩ :=
    parse_events rendered index choice delta reply
  have hbefore := fun i => flatMap_other (fun e he => hother e (mem_append_left _ he)) i
  have hafter := fun i => flatMap_other (fun e he => hother e (mem_append_right _ he)) i
  simp only [Choice.events, hlogprobs, hevents]
  rw [hlogprobs] at hcontent
  rcases hcontent with rfl | ⟨text, rfl⟩
  · -- no content: nothing is reported
    have hnone : ∀ i, (before ++ [] ++ after).flatMap (Event.reported i) = [] ∧
        (before ++ [] ++ after).flatMap (Event.contentText i) = [] := by
      intro i
      simp only [append_nil, flatMap_append, hbefore i, hafter i, and_self]
    have hpaired : ∀ e ∈ before ++ [] ++ after, e.Paired := by
      intro e he
      rw [append_nil] at he
      exact (hother e he 0).2.2
    refine ⟨?_, hpaired, fun i _ => hnone i, ?_⟩
    · split
      · exact fun h hh => absurd hh (by simp)
      · split
        · intro h hh
          rcases mem_append.mp hh with hh | hh
          · exact hheld h hh
          · rw [mem_singleton.mp hh]
            exact hlength
        · exact hheld
    · rw [(hnone index).1, nil_append]
      split
      · exact nil_sublist _
      · split
        · rw [heldTokens, flatMap_append, flatMap_singleton]
          exact List.Sublist.refl _
        · exact sublist_append_left _ _
  · obtain ⟨hreported, hpaired⟩ := contentEvent_reported index text delta.text hheld hlength
    have hne : before ++ [contentEvent index choice.held text delta.text delta.tokenIds (some logprobs)] ++
        after ≠ [] := by simp
    simp only [if_pos hne]
    refine ⟨fun h hh => absurd hh (by simp), ?_, ?_, ?_⟩
    · intro e he
      rw [append_assoc, mem_append, singleton_append, mem_cons] at he
      rcases he with he | rfl | he
      · exact (hother e (mem_append_left _ he) 0).2.2
      · exact hpaired
      · exact (hother e (mem_append_right _ he) 0).2.2
    · intro i hi
      simp only [flatMap_append, hbefore i, hafter i, nil_append, append_nil, flatMap_singleton]
      constructor
      · exact if_neg (Ne.symm hi)
      · exact if_neg (Ne.symm hi)
    · simp only [flatMap_append, hbefore index, hafter index, nil_append, append_nil,
        flatMap_singleton]
      rw [hreported, heldTokens_nil, append_nil]
      obtain ⟨older, holder⟩ := released_suffix text delta.text choice.held
      have hsplit := heldTokens_append older (released text delta.text choice.held)
      rw [holder] at hsplit
      rw [hsplit, append_assoc]
      exact sublist_append_right _ _

/-- Without a parser a delta with text reports all held tokens and its own, and one without text is
held unless it is the last. -/
theorem events_noParser (rendered : Rendered) (index : Nat) (choice : Choice τ ε)
    (delta : Delta τ ε) (reply : Reply τ) (hlogprobs : delta.logprobs = some logprobs)
    (hlength : delta.tokenIds.length = logprobs.length) (hparser : choice.hasParser = false)
    (hheld : PairedHeld choice.held) (hempty : ∀ h ∈ choice.held, h.text = []) :
    let next := choice.events rendered index delta reply
    next.2.flatMap (Event.contentText index) = delta.text ∧ next.2.flatMap (Event.reported index) =
        (if delta.text = [] then [] else heldTokens choice.held ++ delta.tokenIds.zip logprobs) ∧
      (delta.finished = false → (∀ h ∈ next.1.held, h.text = []) ∧ heldTokens next.1.held =
          if delta.text = [] then heldTokens choice.held ++ delta.tokenIds.zip logprobs else []) := by
  by_cases htext : delta.text = []
  · have hevents : (parse rendered index choice delta reply).1 = [] := by
      simp [parse, hparser, htext]
    simp only [Choice.events, hlogprobs, hevents, htext, if_true, flatMap_nil]
    refine ⟨trivial, trivial, ?_⟩
    intro hfinished
    simp only [hfinished, ne_eq, not_true_eq_false, if_false, if_true]
    constructor
    · intro h hh
      rcases mem_append.mp hh with hh | hh
      · exact hempty h hh
      · rw [mem_singleton.mp hh]
    · rw [heldTokens, flatMap_append, flatMap_singleton]
      rfl
  · have hevents : (parse rendered index choice delta reply).1 =
        [contentEvent index choice.held delta.text delta.text delta.tokenIds (some logprobs)] := by
      simp [parse, hparser, htext, hlogprobs]
    obtain ⟨hreported, -⟩ := contentEvent_reported index delta.text delta.text hheld hlength
    rw [released_self delta.text hempty] at hreported
    simp only [Choice.events, hlogprobs, hevents, if_neg htext, flatMap_singleton, hreported]
    refine ⟨if_pos rfl, trivial, ?_⟩
    intro _
    simp [heldTokens]

/-! ## A whole stream -/

section Streams

variable [DecidableEq τ] {rendered : Rendered} {jsonFloat : φ → φ} {maxTokens n : Nat} {topK : Int}
  {hasParser : Bool}

/-- The tokens of an output, with the entries of their log-probabilities. -/
def engineTokens (jsonFloat : φ → φ) (topK : Int) (output : EngineOutput τ φ) :
    List (τ × TokenEntry τ φ) :=
  match deltaLogprobs jsonFloat topK output.tokenIds output.positions with
  | .ok entries => output.tokenIds.zip entries
  | .error _ => []

/-- The outputs of a choice. -/
def outputsOf (i : Nat) (outputs : List (EngineOutput τ φ)) : List (EngineOutput τ φ) :=
  outputs.filter fun output => output.index = i

/-- An output without text. -/
def noText (output : EngineOutput τ φ) : Bool := decide (output.text = [])

omit [DecidableEq τ] in
theorem outputsOf_append (i : Nat) (outputs : List (EngineOutput τ φ)) (output : EngineOutput τ φ) :
    outputsOf i (outputs ++ [output]) =
      if output.index = i then outputsOf i outputs ++ [output] else outputsOf i outputs := by
  rw [outputsOf, filter_append]
  by_cases h : output.index = i
  · simp [outputsOf, h]
  · simp [outputsOf, h]

/-- What a step does to a stream. -/
theorem Stream.step_ok {s s' : Stream τ φ} {output : EngineOutput τ φ}
    (h : Stream.step rendered jsonFloat ⟨maxTokens, some topK⟩ s output = .ok s') :
    ∃ choice entries, s.chat[output.index]? = some choice ∧ output.index ∉ s.finished ∧
      entries.length = output.tokenIds.length ∧
      engineTokens jsonFloat topK output = output.tokenIds.zip entries ∧
      let next := choice.events rendered output.index
        ⟨output.text, output.tokenIds, output.finishReason.isSome, some entries⟩ output.reply
      s'.chat = s.chat.set output.index next.1 ∧
      (∃ closing, s'.buffer = s.buffer ++ next.2 ++ closing ∧ ∀ e ∈ closing, e.Other) ∧
      ∀ i, i ∉ s'.finished → i ∉ s.finished ∧ (i = output.index → output.finishReason.isSome = false) := by
  rw [Stream.step] at h
  cases hchoice : s.chat[output.index]? with
  | none =>
    simp only [hchoice] at h
    cases h
  | some choice =>
    simp only [hchoice] at h
    split at h
    · cases h
    · next hopen =>
      split at h
      · cases h
      · obtain ⟨logprobs, hlogprobs, h⟩ := bind_eq_ok.mp h
        simp only [outputLogprobs] at hlogprobs
        cases hentries : deltaLogprobs jsonFloat topK output.tokenIds output.positions with
        | error e =>
          rw [hentries] at hlogprobs
          cases hlogprobs
        | ok entries =>
          rw [hentries] at hlogprobs
          obtain rfl := Except.ok.inj hlogprobs
          refine ⟨choice, entries, rfl, fun hmem => hopen (.inl hmem), length_deltaLogprobs hentries, ?_, ?_⟩
          · simp only [engineTokens, hentries]
          · cases hfinish : output.finishReason with
            | none =>
              rw [hfinish] at h
              obtain rfl := Except.ok.inj h
              exact ⟨rfl, ⟨[], rfl, by simp⟩, fun i hi => ⟨hi, fun _ => rfl⟩⟩
            | some reason =>
              rw [hfinish] at h
              obtain rfl := Except.ok.inj h
              refine ⟨rfl, ⟨_, rfl, ?_⟩, ?_⟩
              · intro e he
                rw [mem_singleton.mp he]
                exact Event.other_of_ne fun i text tokens => by simp
              · intro i hi
                have hne : i ≠ output.index := fun heq => hi (heq ▸ mem_cons_self)
                exact ⟨fun hmem => hi (mem_cons_of_mem _ hmem), fun heq => absurd heq hne⟩

/-- The stream after some outputs. -/
structure Reported (jsonFloat : φ → φ) (topK : Int) (hasParser : Bool) (outputs : List (EngineOutput τ φ))
    (s : Stream τ φ) : Prop where
  paired : ∀ e ∈ s.buffer, e.Paired
  absent : ∀ i : Nat, s.chat[i]? = none → s.buffer.flatMap (Event.reported i) = [] ∧ outputsOf i outputs = [] ∧
    s.buffer.flatMap (Event.contentText i) = []
  parser : ∀ i : Nat, ∀ choice ∈ s.chat[i]?, choice.hasParser = hasParser
  held : ∀ i : Nat, ∀ choice ∈ s.chat[i]?, PairedHeld choice.held
  sublist : ∀ i : Nat, ∀ choice ∈ s.chat[i]?,
    (s.buffer.flatMap (Event.reported i) ++ heldTokens choice.held).Sublist
      ((outputsOf i outputs).flatMap (engineTokens jsonFloat topK))
  plain : hasParser = false → ∀ i : Nat, ∀ choice ∈ s.chat[i]?,
    s.buffer.flatMap (Event.contentText i) = (outputsOf i outputs).flatMap (·.text) ∧
      s.buffer.flatMap (Event.reported i) =
        ((outputsOf i outputs).rdropWhile noText).flatMap (engineTokens jsonFloat topK) ∧
      (i ∉ s.finished → (∀ h ∈ choice.held, h.text = []) ∧ heldTokens choice.held =
        ((outputsOf i outputs).rtakeWhile noText).flatMap (engineTokens jsonFloat topK))

theorem reported_start :
    Reported jsonFloat topK hasParser [] (Stream.start n hasParser : Stream τ φ) := by
  have hchoice : ∀ i : Nat, ∀ choice ∈ (Stream.start n hasParser : Stream τ φ).chat[i]?,
      choice = ⟨hasParser, [], false, []⟩ := by
    intro i choice hmem
    exact eq_of_mem_replicate (mem_of_getElem? hmem)
  refine ⟨fun e he => absurd he (by simp [Stream.start]), fun i _ => ⟨rfl, rfl, rfl⟩, ?_, ?_, ?_, ?_⟩
  · intro i choice hmem
    rw [hchoice i choice hmem]
  · intro i choice hmem h hh
    rw [hchoice i choice hmem] at hh
    simp at hh
  · intro i choice hmem
    rw [hchoice i choice hmem]
    exact List.Sublist.refl _
  · intro _ i choice hmem
    rw [hchoice i choice hmem]
    exact ⟨rfl, rfl, fun _ => ⟨by simp, rfl⟩⟩

/-- A step keeps what is known about the reported tokens. -/
theorem Reported.step {outputs : List (EngineOutput τ φ)} {s s' : Stream τ φ} {output : EngineOutput τ φ}
    (hs : Reported jsonFloat topK hasParser outputs s)
    (h : Stream.step rendered jsonFloat ⟨maxTokens, some topK⟩ s output = .ok s') :
    Reported jsonFloat topK hasParser (outputs ++ [output]) s' := by
  obtain ⟨choice, entries, hchoice, hopen, hlength, htokens, hchat, ⟨closing, hbuffer, hclosing⟩, hfinished⟩ :=
    Stream.step_ok h
  have hheld := hs.held _ choice hchoice
  have hreported := events_reported rendered output.index choice
    ⟨output.text, output.tokenIds, output.finishReason.isSome, some entries⟩ output.reply rfl hlength.symm
    hheld
  have hplain := fun hparser hempty => events_noParser rendered output.index choice
    ⟨output.text, output.tokenIds, output.finishReason.isSome, some entries⟩ output.reply
    rfl hlength.symm hparser hheld hempty
  have hkeeps : (choice.events rendered output.index
      ⟨output.text, output.tokenIds, output.finishReason.isSome, some entries⟩ output.reply).1.hasParser =
        choice.hasParser := rfl
  generalize choice.events rendered output.index
    ⟨output.text, output.tokenIds, output.finishReason.isSome, some entries⟩ output.reply = next at *
  obtain ⟨hpaired, hevents, hothers, hsublist⟩ := hreported
  have hlt : output.index < s.chat.length := (List.getElem?_eq_some_iff.mp hchoice).1
  have hget : ∀ i, s'.chat[i]? = if output.index = i then some next.1 else s.chat[i]? := by
    intro i
    rw [hchat, getElem?_set, if_pos hlt]
  have hbuf : ∀ i, s'.buffer.flatMap (Event.reported i) =
        s.buffer.flatMap (Event.reported i) ++ next.2.flatMap (Event.reported i) ∧
      s'.buffer.flatMap (Event.contentText i) =
        s.buffer.flatMap (Event.contentText i) ++ next.2.flatMap (Event.contentText i) := by
    intro i
    have hnone := flatMap_other hclosing i
    rw [hbuffer, flatMap_append, flatMap_append, flatMap_append, flatMap_append,
      hnone.1, hnone.2, append_nil, append_nil]
    exact ⟨rfl, rfl⟩
  refine ⟨?_, ?_, ?_, ?_, ?_, ?_⟩
  · intro e he
    rw [hbuffer, mem_append, mem_append] at he
    rcases he with (he | he) | he
    · exact hs.paired e he
    · exact hevents e he
    · exact (hclosing e he 0).2.2
  · intro i hi
    rw [hget] at hi
    split at hi
    · cases hi
    · next hne =>
      obtain ⟨hreport, houtputs, htext⟩ := hs.absent i hi
      obtain ⟨hreport', htext'⟩ := hothers i (Ne.symm hne)
      rw [(hbuf i).1, (hbuf i).2, outputsOf_append, if_neg hne, hreport, htext, hreport', htext']
      exact ⟨rfl, houtputs, rfl⟩
  · intro i c hc
    rw [hget] at hc
    split at hc
    · rw [← some.inj hc, hkeeps]
      exact hs.parser _ choice hchoice
    · exact hs.parser i c hc
  · intro i c hc
    rw [hget] at hc
    split at hc
    · rw [← some.inj hc]
      exact hpaired
    · exact hs.held i c hc
  · intro i c hc
    rw [hget] at hc
    rw [(hbuf i).1, outputsOf_append]
    split at hc
    · next heq =>
      subst heq
      rw [← some.inj hc, if_pos rfl, flatMap_append, flatMap_singleton, htokens, append_assoc]
      have hbefore := hs.sublist _ choice hchoice
      refine ((List.Sublist.refl _).append hsublist).trans ?_
      rw [← append_assoc]
      exact hbefore.append (List.Sublist.refl _)
    · next hne =>
      rw [if_neg hne, (hothers i (Ne.symm hne)).1, append_nil]
      exact hs.sublist i c hc
  · intro hparser i c hc
    rw [hget] at hc
    rw [(hbuf i).1, (hbuf i).2, outputsOf_append]
    split at hc
    · next heq =>
      subst heq
      obtain ⟨htext, hreport, hheldTokens⟩ := hs.plain hparser _ choice hchoice
      obtain ⟨hempty, hheldTokens⟩ := hheldTokens hopen
      obtain ⟨htext', hreport', hheld'⟩ := hplain ((hs.parser _ choice hchoice).trans hparser) hempty
      rw [← some.inj hc, if_pos rfl, htext, htext', hreport, hreport', flatMap_append,
        flatMap_singleton]
      by_cases hnone : output.text = []
      · have hno : noText output = true := decide_eq_true hnone
        rw [rdropWhile_concat_pos _ _ _ hno, rtakeWhile_concat_pos _ _ _ hno, if_pos hnone,
          append_nil, flatMap_append, flatMap_singleton, htokens]
        refine ⟨rfl, rfl, ?_⟩
        intro hi
        obtain ⟨hempty', hheld'⟩ := hheld' ((hfinished _ hi).2 rfl)
        rw [if_pos hnone] at hheld'
        exact ⟨hempty', by rw [hheld', hheldTokens]⟩
      · have hno : ¬ noText output = true := by simpa [noText] using hnone
        rw [rdropWhile_concat_neg _ _ _ hno, rtakeWhile_concat_neg _ _ _ hno, if_neg hnone,
          hheldTokens, ← append_assoc, ← flatMap_append, rdropWhile_append_rtakeWhile,
          flatMap_append, flatMap_singleton, htokens]
        refine ⟨rfl, rfl, ?_⟩
        intro hi
        obtain ⟨hempty', hheld'⟩ := hheld' ((hfinished _ hi).2 rfl)
        rw [if_neg hnone] at hheld'
        exact ⟨hempty', hheld'⟩
    · next hne =>
      rw [if_neg hne, (hothers i (Ne.symm hne)).1, (hothers i (Ne.symm hne)).2, append_nil,
        append_nil]
      obtain ⟨htext, hreport, hheld'⟩ := hs.plain hparser i c hc
      exact ⟨htext, hreport, fun hi => hheld' (hfinished i hi).1⟩

/-- In every stream with log-probabilities each content event has as many of them as tokens, the events
of a choice report tokens of its deltas in the order of the engine and none twice, and without a parser
they report exactly the tokens up to the last delta with text and have the text of the choice. -/
theorem chat_logprobs (rendered : Rendered) (jsonFloat : φ → φ) (maxTokens : Nat) (topK : Int) (n : Nat)
    (hasParser : Bool) {outputs : List (EngineOutput τ φ)} {s : Stream τ φ}
    (h : produce rendered jsonFloat ⟨maxTokens, some topK⟩ n hasParser outputs = .ok s) :
    (∀ e ∈ s.buffer, e.Paired) ∧ (∀ i, (s.buffer.flatMap (Event.reported i)).Sublist
        ((outputsOf i outputs).flatMap (engineTokens jsonFloat topK))) ∧ (hasParser = false → ∀ i,
        s.buffer.flatMap (Event.reported i) =
            ((outputsOf i outputs).rdropWhile noText).flatMap (engineTokens jsonFloat topK) ∧
          s.buffer.flatMap (Event.contentText i) = (outputsOf i outputs).flatMap (·.text)) := by
  have hreported : Reported jsonFloat topK hasParser outputs s :=
    foldlM_invariant reported_start (fun _ _ _ _ hdone hstep => hdone.step hstep) h
  refine ⟨hreported.paired, ?_, ?_⟩
  · intro i
    cases hchoice : s.chat[i]? with
    | none =>
      rw [(hreported.absent i hchoice).1]
      exact nil_sublist _
    | some choice => exact (sublist_append_left _ _).trans (hreported.sublist i choice hchoice)
  · intro hparser i
    cases hchoice : s.chat[i]? with
    | none =>
      obtain ⟨hreport, houtputs, htext⟩ := hreported.absent i hchoice
      rw [hreport, houtputs, htext]
      exact ⟨rfl, rfl⟩
    | some choice =>
      obtain ⟨htext, hreport, -⟩ := hreported.plain hparser i choice hchoice
      exact ⟨hreport, htext⟩

end Streams

/-! ## Examples -/

/-- An output of the only choice with one token and no alternatives. -/
def sampleOutput (text : Text) (token : Nat) (finishReason : Option String) : EngineOutput Nat Int :=
  ⟨0, text, [token], some [[(token, ⟨none, -1, some text⟩)]], finishReason, ⟨none, none⟩⟩

/-- A token without text, a token with text and a last one without: the first two are reported. -/
theorem chat_logprobs_three :
    ∃ s, produce ⟨none, false⟩ id ⟨8, some 0⟩ 1 false
        [sampleOutput [] 1 none, sampleOutput ['a'] 2 none, sampleOutput [] 3 (some "stop")] = .ok s ∧
      s.buffer.flatMap (Event.reported 0) =
        [sampleOutput [] 1 none, sampleOutput ['a'] 2 none].flatMap (engineTokens id 0) := by
  have hrun : ∃ s, produce ⟨none, false⟩ id ⟨8, some 0⟩ 1 false
      [sampleOutput [] 1 none, sampleOutput ['a'] 2 none, sampleOutput [] 3 (some "stop")] = .ok s :=
    ⟨_, rfl⟩
  obtain ⟨s, hs⟩ := hrun
  exact ⟨s, hs, ((chat_logprobs ⟨none, false⟩ id 8 0 1 false hs).2.2 rfl 0).1⟩

end ArcticPlatform.Chat
