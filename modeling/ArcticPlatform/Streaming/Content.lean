import ArcticPlatform.Library.Coalescing
import ArcticPlatform.Streaming.EventBuffer

/-!
# Streaming: what a reader sees of a choice

Whatever the interleaving of puts and pops, the events of a choice that have left
the buffer or are still in it are the events that were put for the choice with
neighbours joined.

Main results:

- Theorem `put_cases`: what a put can do.
- Theorem `coalesced_fold`: a run of deltas that are joined stays coalesced.
- Theorem `run_delivers_content`: the content of a choice run by run, its finish
  behind its deltas, and the sequence numbers.
-/

namespace ArcticPlatform.Streaming

open Coalescing List Function

/-! ## Content of an event -/

namespace Event

/-- The event is a delta. -/
def IsDelta : Event → Prop
  | .delta _ => True
  | _ => False

/-- `event["type"]`. -/
def type : Event → String
  | .delta d => d.kind.type
  | .choiceFinished _ _ => "choice_finished"
  | .usage _ _ _ _ => "usage"
  | .completed => "completed"

/-- Text of an event. -/
def text : Event → List Char
  | .delta d => (d.text.getD "").toList
  | _ => []

/-- Tool-call arguments of an event. -/
def arguments : Event → List Char
  | .delta d => (d.arguments.getD "").toList
  | _ => []

/-- Token ids of an event. -/
def tokenIds : Event → List Int
  | .delta d => d.tokenIds.getD []
  | _ => []

/-- Logprobs of an event. -/
def logprobs : Event → List PyJson.Json
  | .delta d => d.logprobs.getD []
  | _ => []

/-- Number of reasoning tokens that an event counts. -/
def tokenCount : Event → Int
  | .delta d =>
    match d.kind with
    | .reasoningDelta tokenCount => tokenCount
    | _ => 0
  | _ => 0

/-- Tool call that an event belongs to. -/
def callIndex : Event → Option Int
  | .delta d =>
    match d.kind with
    | .toolCallDelta index _ _ => some index
    | _ => none
  | _ => none

/-- `id` and `name` of a tool call, where the event has them. -/
def callHead : Event → Option String × Option String
  | .delta d =>
    match d.kind with
    | .toolCallDelta _ id name => (id, name)
    | _ => (none, none)
  | _ => (none, none)

end Event

/-- An event carries a run of events that were put: one event that is the run, or a delta with the
concatenated content of deltas of its choice and type.  A tool call starts only at the head of a
run. -/
structure Carries (run : List Event) (event : Event) : Prop where
  choice : ∀ x ∈ run, x.choiceIndex = event.choiceIndex
  type : ∀ x ∈ run, x.type = event.type
  text : event.text = run.flatMap Event.text
  arguments : event.arguments = run.flatMap Event.arguments
  tokenIds : event.tokenIds = run.flatMap Event.tokenIds
  logprobs : event.logprobs = run.flatMap Event.logprobs
  tokenCount : event.tokenCount = (run.map Event.tokenCount).sum
  callIndex : ∀ x ∈ run, x.callIndex = event.callIndex
  callHead : run.map Event.callHead = event.callHead :: replicate (run.length - 1) (none, none)
  alone : ¬ event.IsDelta → run = [event]

/-- The events of a choice. -/
def ofChoice (c : Int) (events : List Event) : List Event :=
  events.filter fun e => e.choiceIndex = some c

/-- Join of two neighbours of one choice: what a merge makes of them. -/
def Event.join : Event → Event → Option Event
  | .delta old, .delta added =>
    if old.choiceIndex = added.choiceIndex then
      (mergedKind old.kind added.kind).map fun kind => .delta (old.merged added kind)
    else none
  | _, _ => none

/-! ## Joins keep the content -/

theorem joinField_getD {α : Type} [Append α] (empty : α) (hempty : empty ++ empty = empty)
    (old added : Option α) :
    (joinField empty old added).getD empty = old.getD empty ++ added.getD empty := by
  cases old with
  | none =>
    cases added with
    | none => exact hempty.symm
    | some b => rfl
  | some a => rfl

theorem mergedKind_cases {old added kind : DeltaKind} (h : mergedKind old added = some kind) :
    (old = .delta ∧ added = .delta ∧ kind = .delta) ∨
    (old = .contentDelta ∧ added = .contentDelta ∧ kind = .contentDelta) ∨
    (∃ m n, old = .reasoningDelta m ∧ added = .reasoningDelta n ∧ kind = .reasoningDelta (m + n)) ∨
    (∃ index id name, old = .toolCallDelta index id name ∧
      added = .toolCallDelta index none none ∧ kind = .toolCallDelta index id name) := by
  unfold mergedKind at h
  split at h
  · cases h
    exact .inl ⟨rfl, rfl, rfl⟩
  · cases h
    exact .inr (.inl ⟨rfl, rfl, rfl⟩)
  · cases h
    exact .inr (.inr (.inl ⟨_, _, rfl, rfl, rfl⟩))
  · rename_i oldIndex oldId oldName index id name
    simp only [ne_eq, Bool.or_eq_true, decide_eq_true_eq] at h
    split at h
    · cases h
    · rename_i hsame
      simp only [not_or, not_not, Bool.not_eq_true, Option.isSome_eq_false_iff,
        Option.isNone_iff_eq_none] at hsame
      obtain ⟨⟨rfl, rfl⟩, rfl⟩ := hsame
      cases h
      exact .inr (.inr (.inr ⟨_, _, _, rfl, rfl, rfl⟩))
  · cases h

theorem join_eq_some {a b ab : Event} (h : a.join b = some ab) :
    ∃ old added kind, a = .delta old ∧ b = .delta added ∧
      old.choiceIndex = added.choiceIndex ∧ mergedKind old.kind added.kind = some kind ∧
      ab = .delta (old.merged added kind) := by
  unfold Event.join at h
  split at h
  · rename_i old added
    split at h
    · rename_i hchoice
      obtain ⟨kind, hkind, hab⟩ := Option.map_eq_some_iff.mp h
      exact ⟨old, added, kind, rfl, rfl, hchoice, hkind, hab.symm⟩
    · cases h
  · cases h

/-- What a join keeps of the two events. -/
structure Joins (a b ab : Event) : Prop where
  isDelta : ab.IsDelta
  choice : a.choiceIndex = ab.choiceIndex ∧ b.choiceIndex = ab.choiceIndex
  type : a.type = ab.type ∧ b.type = ab.type
  text : ab.text = a.text ++ b.text
  arguments : ab.arguments = a.arguments ++ b.arguments
  tokenIds : ab.tokenIds = a.tokenIds ++ b.tokenIds
  logprobs : ab.logprobs = a.logprobs ++ b.logprobs
  tokenCount : ab.tokenCount = a.tokenCount + b.tokenCount
  callIndex : a.callIndex = ab.callIndex ∧ b.callIndex = ab.callIndex
  callHead : ab.callHead = a.callHead ∧ b.callHead = (none, none)

theorem joins_of_join {a b ab : Event} (h : a.join b = some ab) : Joins a b ab := by
  obtain ⟨old, added, kind, rfl, rfl, hchoice, hkind, rfl⟩ := join_eq_some h
  constructor
  case isDelta => trivial
  case choice => simp [Event.choiceIndex, Delta.merged, hchoice]
  case text => simp [Event.text, Delta.merged, joinField_getD "" rfl]
  case arguments => simp [Event.arguments, Delta.merged, joinField_getD "" rfl]
  case tokenIds => simp [Event.tokenIds, Delta.merged, joinField_getD [] rfl]
  case logprobs => simp [Event.logprobs, Delta.merged, joinField_getD [] rfl]
  -- What is left depends on the kinds only.
  all_goals
    obtain ⟨h₁, h₂, h₃⟩ | ⟨h₁, h₂, h₃⟩ | ⟨m, n, h₁, h₂, h₃⟩ | ⟨index, id, name, h₁, h₂, h₃⟩ :=
      mergedKind_cases hkind
  all_goals
    simp [Event.type, Event.tokenCount, Event.callIndex, Event.callHead, Delta.merged, h₁, h₂, h₃,
      DeltaKind.type]

theorem carries_single (event : Event) : Carries [event] event := by
  constructor <;> simp

theorem forall_mem_snoc {α β : Type} {f : α → β} {run : List α} {a b ab : α}
    (hrun : ∀ x ∈ run, f x = f a) (h : f a = f ab ∧ f b = f ab) :
    ∀ x ∈ run ++ [b], f x = f ab := by
  intro x hx
  rcases mem_append.mp hx with hx | hx
  · rw [hrun x hx, h.1]
  · rw [mem_singleton.mp hx, h.2]

theorem carries_join (run : List Event) (a b ab : Event) (hrun : Carries run a)
    (hjoin : a.join b = some ab) : Carries (run ++ [b]) ab := by
  have hjoins := joins_of_join hjoin
  constructor
  case choice => exact forall_mem_snoc hrun.choice hjoins.choice
  case type => exact forall_mem_snoc hrun.type hjoins.type
  case callIndex => exact forall_mem_snoc hrun.callIndex hjoins.callIndex
  case text => simp [hjoins.text, hrun.text]
  case arguments => simp [hjoins.arguments, hrun.arguments]
  case tokenIds => simp [hjoins.tokenIds, hrun.tokenIds]
  case logprobs => simp [hjoins.logprobs, hrun.logprobs]
  case tokenCount => simp [hjoins.tokenCount, hrun.tokenCount]
  case callHead =>
    have hlength := congrArg List.length hrun.callHead
    simp only [length_map, length_cons] at hlength
    rw [map_append, hrun.callHead, map_singleton, hjoins.callHead.1, hjoins.callHead.2,
      cons_append, ← replicate_succ', length_append, length_singleton, Nat.add_sub_cancel]
    congr 2
    omega
  case alone => exact fun halone => absurd hjoins.isDelta halone

/-! ## What a put can do -/

namespace EventBuffer

variable {b b' : EventBuffer} {event : Event}

/-- The guards of an append. -/
structure Appends (b : EventBuffer) (event : Event) : Prop where
  fitsEvent : eventSize event ≤ b.limits.maxEventBytes
  fitsCount : b.events.length < b.limits.maxBufferEvents
  fitsBytes : b.bytes + eventSize event ≤ b.limits.maxBufferBytes

/-- The guards of a merge of `d` into the entry at `i`. -/
structure Merges (b : EventBuffer) (d : Delta) (i : Nat) (old : Delta) (kind : DeltaKind)
    (size : Int) : Prop where
  isOpen : b.openDeltas d.choiceIndex = some i
  isDelta : (b.heap i).event = .delta old
  merged : mergedKind old.kind d.kind = some kind
  size_eq : size = (b.heap i).size + kindGrowth old.kind kind +
    (MergedKey.all.map (appendedSize old d)).sum
  fitsEvent : size ≤ b.limits.maxEventBytes
  fitsBytes : b.bytes - (b.heap i).size + size ≤ b.limits.maxBufferBytes

theorem append_cases {r : Except StreamError Unit} (h : b.append event = (r, b')) :
    (∃ error, r = .error error ∧ b' = b) ∨
    (r = .ok () ∧ b.Appends event ∧ b' = b.appended ⟨event, eventSize event⟩) := by
  simp only [append] at h
  split at h
  · cases h
    exact .inl ⟨_, rfl, rfl⟩
  · rename_i hsize
    split at h
    · cases h
      exact .inl ⟨_, rfl, rfl⟩
    · rename_i hroom
      push Not at hsize hroom
      cases h
      exact .inr ⟨rfl, ⟨hsize, hroom.1, hroom.2⟩, rfl⟩

/-- `_merge` leaves the buffer as it was, or changes the open delta of the choice in place. -/
theorem merge_cases {d : Delta} {r : Except StreamError Bool} (h : b.merge d = (r, b')) :
    (r ≠ .ok true ∧ b' = b) ∨ (r = .ok true ∧ ∃ i old kind size, b.Merges d i old kind size ∧
      b' = b.replaced i ⟨.delta (old.merged d kind), size⟩) := by
  unfold merge at h
  split at h
  · cases h
    exact .inl ⟨by simp, rfl⟩
  · rename_i i hopen
    simp only at h
    split at h
    · rename_i old hold
      split at h
      · cases h
        exact .inl ⟨by simp, rfl⟩
      · rename_i kind hkind
        split at h
        · cases h
          exact .inl ⟨by simp, rfl⟩
        · rename_i hsize
          split at h
          · cases h
            exact .inl ⟨by simp, rfl⟩
          · rename_i hroom
            push Not at hsize hroom
            cases h
            exact .inr ⟨rfl, i, old, kind, _, ⟨hopen, hold, hkind, rfl, hsize, hroom⟩, rfl⟩
    · cases h
      exact .inl ⟨by simp, rfl⟩

/-- A put raises with the buffer as it was, merges a delta into the open delta of its choice, or
appends an entry. -/
theorem put_cases {r : Except StreamError Unit} (h : b.put event = (r, b')) :
    (∃ error, r = .error error ∧ b' = b) ∨
    (r = .ok () ∧ ∃ d i old kind size, event = .delta d ∧ b.Merges d i old kind size ∧
      b' = b.replaced i ⟨.delta (old.merged d kind), size⟩) ∨
    (r = .ok () ∧ b.Appends event ∧ b' = b.appended ⟨event, eventSize event⟩) := by
  unfold put at h
  split at h
  · rename_i d
    split at h <;> rename_i hmerge
    · cases h
      obtain ⟨-, hsame⟩ | ⟨hok, -⟩ := merge_cases hmerge
      · exact .inl ⟨_, rfl, hsame⟩
      · cases hok
    · cases h
      obtain ⟨hno, -⟩ | ⟨-, i, old, kind, size, hmerged⟩ := merge_cases hmerge
      · exact absurd rfl hno
      · exact .inr (.inl ⟨rfl, d, i, old, kind, size, rfl, hmerged⟩)
    · obtain ⟨-, rfl⟩ | ⟨hok, -⟩ := merge_cases hmerge
      · exact (append_cases h).imp id .inr
      · cases hok
  · exact (append_cases h).imp id .inr

/-! ## The open deltas -/

/-- Choice of the event that a reference points to. -/
def choiceAt (b : EventBuffer) (i : Nat) : Option Int := (b.heap i).event.choiceIndex

/-- The references are distinct, and an open delta is an undelivered event of its choice with no
event of the choice behind it. -/
structure Inv (b : EventBuffer) : Prop where
  nodup : b.events.Nodup
  fresh : ∀ i ∈ b.events, i < b.next
  newest : ∀ c i, b.openDeltas c = some i → ∃ front back, b.events = front ++ i :: back ∧
    b.choiceAt i = some c ∧ ∀ j ∈ back, b.choiceAt j ≠ some c

theorem inv_init (limits : StreamLimits) : (init limits).Inv where
  nodup := nodup_nil
  fresh := by simp [init]
  newest := by simp [init]

theorem choiceAt_replaced (i : Nat) (entry : Entry)
    (hchoice : entry.event.choiceIndex = b.choiceAt i) (j : Nat) :
    (b.replaced i entry).choiceAt j = b.choiceAt j := by
  by_cases hj : j = i
  · subst hj
    simpa [choiceAt, replaced] using hchoice
  · simp [choiceAt, replaced, update_of_ne hj]

theorem inv_replaced (hinv : b.Inv) (i : Nat) (entry : Entry)
    (hchoice : entry.event.choiceIndex = b.choiceAt i) : (b.replaced i entry).Inv where
  nodup := hinv.nodup
  fresh := hinv.fresh
  newest := by
    intro c k hopen
    obtain ⟨front, back, hevents, hk, hback⟩ := hinv.newest c k hopen
    refine ⟨front, back, hevents, ?_, ?_⟩
    · rw [choiceAt_replaced i entry hchoice, hk]
    · intro j hj
      rw [choiceAt_replaced i entry hchoice]
      exact hback j hj

theorem choiceAt_appended (hinv : b.Inv) (entry : Entry) {j : Nat} (hj : j ∈ b.events) :
    (b.appended entry).choiceAt j = b.choiceAt j := by
  have hne : j ≠ b.next := ne_of_lt (hinv.fresh j hj)
  simp [choiceAt, appended, update_of_ne hne]

theorem choiceAt_appended_next (entry : Entry) :
    (b.appended entry).choiceAt b.next = entry.event.choiceIndex := by
  simp [choiceAt, appended]

/-- An open delta behind which an entry is appended was open before and is of another choice, or is
the entry. -/
theorem openDeltas_appended {entry : Entry} {c : Int} {i : Nat}
    (h : (b.appended entry).openDeltas c = some i) :
    (i = b.next ∧ entry.event.choiceIndex = some c) ∨
    (b.openDeltas c = some i ∧ entry.event.choiceIndex ≠ some c) := by
  obtain ⟨event, size⟩ := entry
  cases event with
  | delta d =>
    simp only [appended] at h
    by_cases hc : c = d.choiceIndex
    · subst hc
      rw [update_self] at h
      cases h
      exact .inl ⟨rfl, rfl⟩
    · rw [update_of_ne hc] at h
      exact .inr ⟨h, by simpa [Event.choiceIndex] using Ne.symm hc⟩
  | choiceFinished choice reason =>
    simp only [appended] at h
    by_cases hc : c = choice
    · subst hc
      rw [update_self] at h
      cases h
    · rw [update_of_ne hc] at h
      exact .inr ⟨h, by simpa [Event.choiceIndex] using Ne.symm hc⟩
  | usage promptTokens completionTokens totalTokens reasoningTokens => cases h
  | completed => cases h

theorem inv_appended (hinv : b.Inv) (entry : Entry) : (b.appended entry).Inv where
  nodup := by
    simp only [appended]
    rw [nodup_append]
    refine ⟨hinv.nodup, nodup_singleton _, ?_⟩
    intro i hi j hj
    rw [mem_singleton.mp hj]
    exact ne_of_lt (hinv.fresh i hi)
  fresh := by
    intro i hi
    simp only [appended, mem_append, mem_singleton] at hi ⊢
    rcases hi with hi | rfl
    · exact Nat.lt_succ_of_lt (hinv.fresh i hi)
    · exact Nat.lt_succ_self _
  newest := by
    intro c i hopen
    obtain ⟨rfl, hchoice⟩ | ⟨hopen, hchoice⟩ := openDeltas_appended hopen
    · refine ⟨b.events, [], rfl, ?_, by simp⟩
      rw [choiceAt_appended_next, hchoice]
    · obtain ⟨front, back, hevents, hi, hback⟩ := hinv.newest c i hopen
      refine ⟨front, back ++ [b.next], ?_, ?_, ?_⟩
      · simp [appended, hevents]
      · rw [choiceAt_appended hinv entry (by simp [hevents]), hi]
      · intro j hj
        rcases mem_append.mp hj with hj | hj
        · rw [choiceAt_appended hinv entry (by simp [hevents, hj])]
          exact hback j hj
        · rw [mem_singleton.mp hj, choiceAt_appended_next]
          exact hchoice

theorem closed_apply (openDeltas : Int → Option Nat) (choice : Option Int) (i : Nat) (c : Int) :
    closed openDeltas choice i c =
      if openDeltas c = some i ∧ choice = some c then none else openDeltas c := by
  cases choice with
  | none => simp [closed]
  | some c' =>
    by_cases hc : c = c'
    · subst hc
      by_cases hi : openDeltas c = some i
      · simp [closed, hi]
      · simp [closed, hi]
    · have hne : c' ≠ c := Ne.symm hc
      by_cases hi : openDeltas c' = some i
      · simp [closed, hi, hne, update_of_ne hc]
      · simp [closed, hi, hne]

theorem pop_cases (h : b.pop = some (event, b')) :
    ∃ i, b.events = i :: b'.events ∧ event = (b.heap i).event ∧ b'.heap = b.heap ∧
      b'.next = b.next ∧
      ∀ c, b'.openDeltas c = if b.openDeltas c = some i ∧ b.choiceAt i = some c then none
        else b.openDeltas c := by
  unfold pop at h
  split at h
  · cases h
  · rename_i i rest hevents
    simp only [Option.some.injEq, Prod.mk.injEq] at h
    obtain ⟨rfl, rfl⟩ := h
    refine ⟨i, hevents, rfl, rfl, rfl, ?_⟩
    intro c
    exact closed_apply b.openDeltas (b.choiceAt i) i c

theorem inv_pop (hinv : b.Inv) (hpop : b.pop = some (event, b')) : b'.Inv := by
  obtain ⟨i, hevents, -, hheap, hnext, hopens⟩ := pop_cases hpop
  have hchoice : ∀ j, b'.choiceAt j = b.choiceAt j := by
    intro j
    rw [choiceAt, choiceAt, hheap]
  have hnodup := hinv.nodup
  rw [hevents, nodup_cons] at hnodup
  constructor
  case nodup => exact hnodup.2
  case fresh =>
    intro j hj
    rw [hnext]
    exact hinv.fresh j (by simp [hevents, hj])
  case newest =>
    intro c k hopen
    rw [hopens] at hopen
    split at hopen
    · cases hopen
    · rename_i hkept
      obtain ⟨front, back, hsplit, hk, hback⟩ := hinv.newest c k hopen
      rw [hevents] at hsplit
      cases front with
      | nil =>
        -- The entry that left would be the open one, which the pop has closed.
        have hik : i = k := (List.cons.inj hsplit).1
        subst hik
        exact absurd ⟨hopen, hk⟩ hkept
      | cons _ front =>
        refine ⟨front, back, (List.cons.inj hsplit).2, ?_, ?_⟩
        · rw [hchoice, hk]
        · intro j hj
          rw [hchoice]
          exact hback j hj

/-! ## The undelivered events -/

theorem buffered_appended (hinv : b.Inv) (entry : Entry) :
    (b.appended entry).buffered = b.buffered ++ [entry.event] := by
  simp only [buffered, appended, map_append, map_singleton, update_self]
  congr 1
  apply map_congr_left
  intro i hi
  rw [update_of_ne (ne_of_lt (hinv.fresh i hi))]

theorem buffered_pop (hpop : b.pop = some (event, b')) : b.buffered = event :: b'.buffered := by
  obtain ⟨i, hevents, rfl, hheap, -, -⟩ := pop_cases hpop
  rw [buffered, buffered, hevents, hheap, map_cons]

theorem buffered_replaced (hinv : b.Inv) {i : Nat} (entry : Entry) {front back : List Nat}
    (hevents : b.events = front ++ i :: back) :
    (b.replaced i entry).buffered =
      front.map (fun j => (b.heap j).event) ++ entry.event :: back.map fun j => (b.heap j).event := by
  have hnodup := hinv.nodup
  rw [hevents, nodup_append, nodup_cons] at hnodup
  obtain ⟨-, ⟨hback, -⟩, hfront⟩ := hnodup
  simp only [buffered, replaced, hevents, map_append, map_cons, update_self]
  congr 1
  · apply map_congr_left
    intro j hj
    rw [update_of_ne (hfront j hj i (by simp))]
  · congr 1
    apply map_congr_left
    intro j hj
    rw [update_of_ne (by rintro rfl; exact hback hj)]

end EventBuffer

theorem ofChoice_append (c : Int) (l l' : List Event) :
    ofChoice c (l ++ l') = ofChoice c l ++ ofChoice c l' := filter_append l l'

variable {c : Int}

theorem ofChoice_singleton_self {event : Event} (h : event.choiceIndex = some c) :
    ofChoice c [event] = [event] := by
  simp [ofChoice, h]

theorem ofChoice_singleton_ne {event : Event} (h : event.choiceIndex ≠ some c) :
    ofChoice c [event] = [] := by
  simp [ofChoice, h]

theorem coalesced_snoc {given shown : List Event}
    (h : Coalesced Event.join (ofChoice c given) (ofChoice c shown)) (event : Event) :
    Coalesced Event.join (ofChoice c (given ++ [event])) (ofChoice c (shown ++ [event])) := by
  rw [ofChoice_append, ofChoice_append]
  by_cases hc : event.choiceIndex = some c
  · rw [ofChoice_singleton_self hc]
    exact h.keep event
  · rw [ofChoice_singleton_ne hc, append_nil, append_nil]
    exact h

/-- An event that is folded into one behind which its choice has no event. -/
theorem coalesced_fold {given shown back : List Event} {old event joined : Event}
    (h : ∀ c, Coalesced Event.join (ofChoice c given) (ofChoice c (shown ++ old :: back)))
    (hjoin : old.join event = some joined)
    (hback : ∀ x ∈ back, x.choiceIndex ≠ old.choiceIndex) (c : Int) :
    Coalesced Event.join (ofChoice c (given ++ [event])) (ofChoice c (shown ++ joined :: back)) := by
  have hchoices := (joins_of_join hjoin).choice
  have hsplit : ∀ x, ofChoice c (shown ++ x :: back) =
      ofChoice c shown ++ ofChoice c [x] ++ ofChoice c back := by
    intro x
    rw [append_cons, ofChoice_append, ofChoice_append]
  have hc := h c
  rw [hsplit] at hc
  rw [hsplit, ofChoice_append]
  by_cases heq : joined.choiceIndex = some c
  · have hnone : ofChoice c back = [] := by
      apply filter_eq_nil_iff.mpr
      intro x hx hxc
      apply hback x hx
      rw [of_decide_eq_true hxc, hchoices.1, heq]
    rw [ofChoice_singleton_self (hchoices.1.trans heq), hnone, append_nil] at hc
    rw [ofChoice_singleton_self heq, ofChoice_singleton_self (hchoices.2.trans heq), hnone,
      append_nil]
    exact hc.fold hjoin
  · rw [ofChoice_singleton_ne (hchoices.1 ▸ heq), append_nil] at hc
    rw [ofChoice_singleton_ne heq, ofChoice_singleton_ne (hchoices.2 ▸ heq), append_nil, append_nil]
    exact hc

/-! ## Runs -/

namespace Stream

/-- The events of each choice are coalesced, and the numbers handed out are those below the next
one. -/
structure Inv (s : Stream) : Prop where
  buffer : s.buffer.Inv
  coalesced : ∀ c, Coalesced Event.join (ofChoice c s.accepted)
    (ofChoice c (s.popped ++ s.buffer.buffered))
  numbers : s.delivered.map Prod.fst = range s.sequence
  handed : s.delivered.map Prod.snd <+: s.popped
  all_handed : s.completed = false → s.delivered.map Prod.snd = s.popped

variable {s : Stream}

theorem inv_init (limits : StreamLimits) : (init limits).Inv where
  buffer := EventBuffer.inv_init limits
  coalesced := fun _ => Coalesced.nil
  numbers := rfl
  handed := prefix_rfl
  all_handed := fun _ => rfl

theorem coalesced_merge (hinv : s.Inv) {d old : Delta} {i : Nat} {kind : DeltaKind} {size : Int}
    (hmerges : s.buffer.Merges d i old kind size) (c : Int) :
    Coalesced Event.join (ofChoice c (s.accepted ++ [.delta d]))
      (ofChoice c (s.popped ++
        (s.buffer.replaced i ⟨.delta (old.merged d kind), size⟩).buffered)) := by
  obtain ⟨front, back, hevents, hchoice, hback⟩ := hinv.buffer.newest _ _ hmerges.isOpen
  have hold : old.choiceIndex = d.choiceIndex := by
    rw [EventBuffer.choiceAt, hmerges.isDelta] at hchoice
    exact Option.some.inj hchoice
  have hjoin : (Event.delta old).join (.delta d) = some (.delta (old.merged d kind)) := by
    simp [Event.join, hold, hmerges.merged]
  rw [EventBuffer.buffered_replaced hinv.buffer _ hevents, ← append_assoc]
  refine coalesced_fold ?_ hjoin ?_ c
  · intro c
    have := hinv.coalesced c
    rw [EventBuffer.buffered, hevents, map_append, map_cons, hmerges.isDelta,
      ← append_assoc] at this
    exact this
  · intro x hx
    obtain ⟨j, hj, rfl⟩ := mem_map.mp hx
    have := hback j hj
    rw [← hold] at this
    exact this

theorem number_records (s : Stream) (event : Event) :
    (s.number event).buffer = s.buffer ∧ (s.number event).accepted = s.accepted ∧
      (s.number event).popped = s.popped := by
  unfold number
  split <;> exact ⟨rfl, rfl, rfl⟩

theorem inv_put (hinv : s.Inv) (event : Event) : (s.step (.put event)).Inv := by
  simp only [step]
  split <;> rename_i b hput
  · obtain ⟨error, herror, -⟩ | ⟨-, d, i, old, kind, size, rfl, hmerges, rfl⟩ | ⟨-, -, rfl⟩ :=
      EventBuffer.put_cases hput
    · cases herror
    · constructor
      case buffer =>
        apply EventBuffer.inv_replaced hinv.buffer
        rw [EventBuffer.choiceAt, hmerges.isDelta]
        rfl
      case coalesced => exact coalesced_merge hinv hmerges
      case numbers => exact hinv.numbers
      case handed => exact hinv.handed
      case all_handed => exact hinv.all_handed
    · constructor
      case buffer => exact EventBuffer.inv_appended hinv.buffer _
      case coalesced =>
        intro c
        rw [EventBuffer.buffered_appended hinv.buffer, ← append_assoc]
        exact coalesced_snoc (hinv.coalesced c) event
      case numbers => exact hinv.numbers
      case handed => exact hinv.handed
      case all_handed => exact hinv.all_handed
  · obtain ⟨-, -, rfl⟩ | ⟨hok, -⟩ | ⟨hok, -⟩ := EventBuffer.put_cases hput
    · exact ⟨hinv.buffer, hinv.coalesced, hinv.numbers, hinv.handed, hinv.all_handed⟩
    · cases hok
    · cases hok

/-- A pop keeps the invariant: what leaves the buffer joins what has left it, and gets the next
number. -/
theorem inv_pop (hinv : s.Inv) : (s.step .pop).Inv := by
  simp only [step]
  split
  · exact hinv
  · rename_i event b hpop
    obtain ⟨hbuffer, haccepted, hpopped⟩ :=
      number_records { s with buffer := b, popped := s.popped ++ [event] } event
    constructor
    case buffer =>
      rw [hbuffer]
      exact EventBuffer.inv_pop hinv.buffer hpop
    case coalesced =>
      intro c
      have := hinv.coalesced c
      rw [EventBuffer.buffered_pop hpop, append_cons] at this
      rw [hbuffer, haccepted, hpopped]
      exact this
    all_goals
      simp only [number]
      split
    case numbers.isTrue => exact hinv.numbers
    case numbers.isFalse =>
      simp only [map_append, map_singleton, range_succ]
      rw [hinv.numbers]
    case handed.isTrue => exact hinv.handed.trans (prefix_append _ _)
    case handed.isFalse hcompleted =>
      simp only [map_append, map_singleton]
      rw [hinv.all_handed (by simpa using hcompleted)]
    case all_handed.isTrue hcompleted =>
      intro hnot
      rw [hcompleted] at hnot
      cases hnot
    case all_handed.isFalse hcompleted =>
      intro _
      simp only [map_append, map_singleton]
      rw [hinv.all_handed (by simpa using hcompleted)]

/-- The invariant holds in every run. -/
theorem inv_run (limits : StreamLimits) (ops : List Op) : (run limits ops).Inv := by
  induction ops using reverseRecOn with
  | nil => exact inv_init limits
  | append_singleton ops op ih =>
    rw [run, foldl_append]
    cases op with
    | put event => exact inv_put ih event
    | pop => exact inv_pop ih

/-- For every choice, the events that have left the buffer followed by those still in it carry, run
by run, the events put for the choice; its finish stays behind its deltas; and what is handed to the
reader is numbered upwards in the order in which it left. -/
theorem run_delivers_content (limits : StreamLimits) (ops : List Op) (c : Int) :
    let s := run limits ops
    let shown := ofChoice c (s.popped ++ s.buffer.buffered)
    (∃ runs : List (List Event), runs.flatten = ofChoice c s.accepted ∧
      Forall₂ Carries runs shown) ∧
    (∀ deltas reason, ofChoice c s.accepted = deltas ++ [.choiceFinished c reason] →
      (∀ e ∈ deltas, e.IsDelta) →
      ∃ deltas', shown = deltas' ++ [.choiceFinished c reason] ∧ ∀ e ∈ deltas', e.IsDelta) ∧
    (s.delivered.map Prod.fst).Pairwise (· < ·) ∧ s.delivered.map Prod.snd <+: s.popped := by
  intro s shown
  have hinv := inv_run limits ops
  refine ⟨?_, ?_, ?_, hinv.handed⟩
  · exact (hinv.coalesced c).exists_runs carries_single carries_join
  · intro deltas reason haccepted hdeltas
    have hcoalesced := hinv.coalesced c
    rw [haccepted] at hcoalesced
    have halone : ∀ x : Event, x.join (.choiceFinished c reason) = none := by
      intro x
      cases x <;> rfl
    obtain ⟨deltas', hshown, hdeltas'⟩ := hcoalesced.snoc_inv halone
    refine ⟨deltas', hshown, ?_⟩
    apply hdeltas'.forall_mem _ hdeltas
    intro a b ab _ hjoin
    exact (joins_of_join hjoin).isDelta
  · rw [hinv.numbers]
    exact pairwise_lt_range

/-- Two deltas are merged and handed over as one. -/
example :
    let text (s : String) : Event := .delta ⟨0, .contentDelta, some s, none, none, none⟩
    (run ⟨4, 4096, 1024⟩ [.put (text "a"), .put (text "b"), .pop]).delivered = [(0, text "ab")] := rfl

/-! ## Batches -/

theorem number_with (s : Stream) (event : Event) (b : EventBuffer) (popped : List Event) :
    { s.number event with buffer := b, popped := popped } =
      { s with buffer := b, popped := popped }.number event := by
  unfold number
  split <;> rfl

theorem error_pop {b b' : EventBuffer} {event : Event} (h : b.pop = some (event, b')) :
    b'.error = b.error := by
  unfold EventBuffer.pop at h
  split at h
  · cases h
  · cases h
    rfl

theorem foldl_pop_eq_drain (n : Nat) (s : Stream) (herror : s.buffer.error = none) :
    (replicate n Op.pop).foldl step s = (s.buffer.drainLoop n).1.foldl number
        { s with buffer := (s.buffer.drainLoop n).2, popped := s.popped ++ (s.buffer.drainLoop n).1 } := by
  induction n generalizing s with
  | zero => simp [EventBuffer.drainLoop]
  | succ n ih =>
    rw [replicate_succ, foldl_cons, EventBuffer.drainLoop]
    simp only [herror, Option.isSome_none, Bool.false_eq_true, if_false]
    cases hpop : s.buffer.pop with
    | none =>
      have hstep : s.step .pop = s := by simp [step, hpop]
      have hdrain : s.buffer.drainLoop n = ([], s.buffer) := by
        cases n with
        | zero => rfl
        | succ n => simp [EventBuffer.drainLoop, hpop]
      rw [hstep, ih s herror, hdrain]
    | some next =>
      obtain ⟨event, b⟩ := next
      have hstep : s.step .pop =
          { s with buffer := b, popped := s.popped ++ [event] }.number event := by
        simp only [step, hpop]
      obtain ⟨hbuffer, -, hpopped⟩ :=
        number_records { s with buffer := b, popped := s.popped ++ [event] } event
      rw [hstep, ih, number_with, hbuffer, hpopped]
      · simp
      · rw [hbuffer]
        exact (error_pop hpop).trans herror

/-- A turn of the loop of `stream_events` is a run of pops: as many as events are buffered. -/
theorem nextBatch_eq_pops (s : Stream) (herror : s.buffer.error = none) :
    s.nextBatch = (replicate s.buffer.events.length Op.pop).foldl step s := by
  rw [foldl_pop_eq_drain _ s herror]
  unfold nextBatch EventBuffer.get
  rw [herror]
  cases hpop : s.buffer.pop with
  | none =>
    have hempty : s.buffer.events = [] := by
      unfold EventBuffer.pop at hpop
      split at hpop
      · assumption
      · cases hpop
    simp only [hempty, length_nil, EventBuffer.drainLoop, foldl_nil, append_nil]
    cases s.buffer.done <;> rfl
  | some next =>
    obtain ⟨event, b⟩ := next
    obtain ⟨i, hevents, -⟩ := EventBuffer.pop_cases hpop
    simp [hevents, EventBuffer.drainLoop, EventBuffer.drain, herror, hpop]

end Stream

end ArcticPlatform.Streaming
