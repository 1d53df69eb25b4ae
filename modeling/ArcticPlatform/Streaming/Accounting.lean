import ArcticPlatform.Streaming.Content

/-!
# Streaming: the bytes of the buffer

The buffer counts the bytes of the events that it holds.  A merge does not serialize the joined
event: it adds up what the appended parts add to it.  These predictions are exact, so the count is
the sum of the sizes after any trace of calls, and the limits hold for the events themselves.

Main results:

- Theorem `eventSize_merged`: the predicted size of a joined delta is its size.
- Theorem `accounts_call`: every call keeps the count and the limits.
- Theorem `buffer_accounting`: the count and the limits after any trace.
-/

namespace ArcticPlatform.Streaming

open PyJson List Function
open Option hiding map_map mem_map

/-! ## The size of a delta -/

/-- Length of the members that do not depend on the content of a delta. -/
def headLength (d : Delta) : Int :=
  ((([("type", Json.str d.kind.type), ("choice_index", Json.int d.choiceIndex)] ++
    d.kind.members).map memberLength).sum : Nat)

/-- Length of one of the members that a merge joins, where a delta has it. -/
def fieldLength (key : MergedKey) : Option Json → Int
  | none => 0
  | some v => memberLength (key.name, v)

variable (key : MergedKey)

theorem length_dumpsString_name : ((dumpsString key.name).length : Int) = key.name.length + 2 := by
  cases key <;> decide

theorem eventSize_delta (d : Delta) :
    eventSize (.delta d) = 1 + headLength d +
      (MergedKey.all.map fun key => fieldLength key (d.get key)).sum := by
  have hfields : ∀ keys : List MergedKey,
      ((((keys.filterMap fun key => (d.get key).map fun v => (key.name, v)).map
        memberLength).sum : Nat) : Int) = (keys.map fun key => fieldLength key (d.get key)).sum := by
    intro keys
    induction keys with
    | nil => rfl
    | cons key keys ih =>
      rw [filterMap_cons, map_cons, sum_cons, ← ih]
      cases d.get key with
      | none => simp [fieldLength]
      | some v => simp [fieldLength]
  have hne : d.members ≠ [] := by simp [Delta.members]
  rw [eventSize, compact, Event.members, length_dumps_obj hne, Delta.members, map_append,
    sum_append, headLength]
  push_cast
  rw [← hfields]
  push_cast
  ring

/-! ## The size of a joined delta -/

theorem length_strings (s t : String) :
    ((dumps .compact (.str (s ++ t))).length : Int) =
      (dumps .compact (.str s)).length + (((compact (.str t)).length : Int) - 2) := by
  have hlength := length_dumpsString_append s t
  simp only [dumps, compact]
  omega

theorem length_arrays (a b : List Json) :
    ((dumps .compact (.arr (a ++ b))).length : Int) = (dumps .compact (.arr a)).length +
      (if b.isEmpty then 0
        else ((compact (.arr b)).length : Int) - 2 + (if a.isEmpty then 0 else 1)) := by
  cases hb : b with
  | nil => simp
  | cons w b' =>
    rw [← hb]
    have hbne : b ≠ [] := by simp [hb]
    cases ha : a with
    | nil =>
      simp only [compact, hb, dumps, dumpsItems, nil_append, isEmpty_cons,
        isEmpty_nil, Bool.false_eq_true, if_false, if_true, length_cons, length_append, length_nil]
      push_cast
      ring
    | cons v a' =>
      rw [← ha]
      have hane : a ≠ [] := by simp [ha]
      have hempty : a.isEmpty = false ∧ b.isEmpty = false := by simp [ha, hb]
      rw [compact, length_dumps_arr (append_ne_nil_of_left_ne_nil hane b), length_dumps_arr hane,
        length_dumps_arr hbne, map_append, sum_append, hempty.1, hempty.2]
      simp only [Bool.false_eq_true, if_false]
      push_cast
      ring

/-- What is predicted for a member, in terms of its values. -/
def appendedLength (key : MergedKey) (old added : Option Json) : Int :=
  match added with
  | none => 0
  | some v =>
    match old with
    | none => (dumpsString key.name).length + 2 + (compact v).length
    | some o =>
      match v with
      | .str _ => ((compact v).length : Int) - 2
      | _ => if truthy v then ((compact v).length : Int) - 2 + (if truthy o then 1 else 0) else 0

variable (old added : Delta)

theorem appendedSize_eq (key : MergedKey) :
    appendedSize old added key = appendedLength key (old.get key) (added.get key) := by
  have hname := length_dumpsString_name key
  have hquotes : ((",\"".length : Nat) : Int) = 2 ∧ (("\":".length : Nat) : Int) = 2 := by decide
  simp only [appendedSize]
  cases added.get key with
  | none => rfl
  | some v =>
    cases old.get key with
    | none =>
      simp only [appendedLength, hquotes.1, hquotes.2]
      omega
    | some o => rfl

theorem fieldLength_str (old added : Option String) :
    fieldLength key ((joinField "" old added).map .str) =
      fieldLength key (old.map .str) + appendedLength key (old.map .str) (added.map .str) := by
  cases old with
  | none =>
    cases added with
    | none => rfl
    | some t =>
      simp only [joinField, isSome_none, isSome_some, Bool.false_or, if_true,
        getD_none, getD_some, String.empty_append, map_some, map_none,
        fieldLength, appendedLength, memberLength, compact]
      push_cast
      ring
  | some s =>
    cases added with
    | none => simp [joinField, appendedLength]
    | some t =>
      have hlength := length_strings s t
      simp only [joinField, isSome_some, Bool.true_or, if_true, getD_some,
        map_some, fieldLength, appendedLength, memberLength]
      push_cast
      linarith

theorem fieldLength_arr (old added : Option (List Json)) :
    fieldLength key ((joinField [] old added).map .arr) =
      fieldLength key (old.map .arr) + appendedLength key (old.map .arr) (added.map .arr) := by
  cases old with
  | none =>
    cases added with
    | none => rfl
    | some t =>
      simp only [joinField, isSome_none, isSome_some, Bool.false_or, if_true,
        getD_none, getD_some, nil_append, map_some, map_none,
        fieldLength, appendedLength, memberLength, compact]
      push_cast
      ring
  | some a =>
    cases added with
    | none => simp [joinField, appendedLength]
    | some b =>
      have hlength := length_arrays a b
      simp only [joinField, isSome_some, Bool.true_or, if_true, getD_some,
        map_some, fieldLength, appendedLength, memberLength, truthy]
      push_cast
      rw [hlength]
      cases a <;> cases b <;> simp <;> ring

theorem fieldLength_merged (kind : DeltaKind) (key : MergedKey) :
    fieldLength key ((old.merged added kind).get key) =
      fieldLength key (old.get key) + appendedSize old added key := by
  rw [appendedSize_eq]
  cases key with
  | text => exact fieldLength_str _ _ _
  | arguments => exact fieldLength_str _ _ _
  | logprobs => exact fieldLength_arr _ _ _
  | tokenIds =>
    have hitems : ((joinField [] old.tokenIds added.tokenIds).map fun ids =>
        Json.arr (ids.map .int)) = (joinField [] (old.tokenIds.map (map Json.int))
          (added.tokenIds.map (map Json.int))).map .arr := by
      cases old.tokenIds <;> cases added.tokenIds <;> simp [joinField]
    have hjoined := fieldLength_arr .tokenIds (old.tokenIds.map (map Json.int))
      (added.tokenIds.map (map Json.int))
    rw [← hitems, Option.map_map, Option.map_map] at hjoined
    exact hjoined

theorem headLength_merged {kind : DeltaKind} (hkind : mergedKind old.kind added.kind = some kind) :
    headLength (old.merged added kind) = headLength old + kindGrowth old.kind kind := by
  obtain ⟨choiceIndex, oldKind, text, arguments, tokenIds, logprobs⟩ := old
  simp only [headLength, Delta.merged] at hkind ⊢
  rcases mergedKind_cases hkind with ⟨rfl, -, rfl⟩ | ⟨rfl, -, rfl⟩ | ⟨m, n, rfl, -, rfl⟩ |
    ⟨index, id, name, rfl, -, rfl⟩
  · simp [kindGrowth]
  · simp [kindGrowth]
  · simp only [DeltaKind.members, DeltaKind.type, kindGrowth, map_append, map_cons,
      map_nil, sum_append, sum_cons, sum_nil, memberLength, dumps]
    push_cast
    ring
  · simp [kindGrowth]

/-- The size that a merge predicts is the size of the joined delta. -/
theorem eventSize_merged {kind : DeltaKind} (hkind : mergedKind old.kind added.kind = some kind) :
    eventSize (.delta (old.merged added kind)) = eventSize (.delta old) +
      kindGrowth old.kind kind + (MergedKey.all.map (appendedSize old added)).sum := by
  have hfields : (MergedKey.all.map fun key =>
      fieldLength key ((old.merged added kind).get key)).sum =
      (MergedKey.all.map fun key => fieldLength key (old.get key)).sum +
        (MergedKey.all.map (appendedSize old added)).sum := by
    rw [← sum_map_add]
    congr 1
    apply map_congr_left
    intro key _
    exact fieldLength_merged old added kind key
  rw [eventSize_delta, eventSize_delta, headLength_merged old added hkind, hfields]
  ring

/-! ## The count -/

namespace EventBuffer

/-- The count is the sum of the sizes of the events, and the events keep the limits. -/
structure Accounts (b : EventBuffer) : Prop where
  inv : b.Inv
  sized : ∀ i ∈ b.events, (b.heap i).size = eventSize (b.heap i).event
  counted : b.bytes = (b.events.map fun i => (b.heap i).size).sum
  fitsEvent : ∀ i ∈ b.events, (b.heap i).size ≤ b.limits.maxEventBytes
  fitsBytes : b.bytes ≤ b.limits.maxBufferBytes
  fitsCount : b.events.length ≤ b.limits.maxBufferEvents

theorem eventSize_nonneg (event : Event) : 0 ≤ eventSize event := Int.natCast_nonneg _

variable {b b' : EventBuffer} {event : Event}

theorem accounts_init {limits : StreamLimits} (hbytes : 0 ≤ limits.maxBufferBytes) :
    (init limits).Accounts where
  inv := inv_init limits
  sized := by simp [init]
  counted := rfl
  fitsEvent := by simp [init]
  fitsBytes := hbytes
  fitsCount := zero_le

theorem accounts_appended (h : b.Accounts) (happends : b.Appends event) :
    (b.appended ⟨event, eventSize event⟩).Accounts := by
  have hheap : ∀ i ∈ b.events,
      Function.update b.heap b.next ⟨event, eventSize event⟩ i = b.heap i := by
    intro i hi
    exact update_of_ne (ne_of_lt (h.inv.fresh i hi)) _ _
  have hsizes : (b.events.map fun i =>
      (Function.update b.heap b.next ⟨event, eventSize event⟩ i).size) =
      b.events.map fun i => (b.heap i).size := by
    apply map_congr_left
    intro i hi
    rw [hheap i hi]
  constructor
  case inv => exact inv_appended h.inv _
  case sized =>
    intro i hi
    rcases mem_append.mp hi with hi | hi
    · simp only [appended, hheap i hi]
      exact h.sized i hi
    · obtain rfl := mem_singleton.mp hi
      simp [appended]
  case counted =>
    simp only [appended, map_append, map_singleton, sum_append, sum_singleton, update_self]
    rw [hsizes, ← h.counted]
  case fitsEvent =>
    intro i hi
    rcases mem_append.mp hi with hi | hi
    · simp only [appended, hheap i hi]
      exact h.fitsEvent i hi
    · obtain rfl := mem_singleton.mp hi
      simpa [appended] using happends.fitsEvent
  case fitsBytes => exact happends.fitsBytes
  case fitsCount =>
    have hroom := happends.fitsCount
    simp only [appended, length_append, length_singleton]
    omega

/-- A merge changes the count by what the size of its entry changes. -/
theorem accounts_replaced (h : b.Accounts) {d old : Delta} {i : Nat} {kind : DeltaKind} {size : Int}
    (hmerges : b.Merges d i old kind size) :
    (b.replaced i ⟨.delta (old.merged d kind), size⟩).Accounts := by
  obtain ⟨front, back, hevents, hchoice, -⟩ := h.inv.newest _ i hmerges.isOpen
  have hmem : i ∈ b.events := by simp [hevents]
  have hsize : size = eventSize (.delta (old.merged d kind)) := by
    rw [eventSize_merged old d hmerges.merged, hmerges.size_eq, h.sized i hmem, hmerges.isDelta]
  have hother : ∀ j ∈ b.events, j ≠ i →
      Function.update b.heap i ⟨.delta (old.merged d kind), size⟩ j = b.heap j := by
    intro j _ hj
    exact update_of_ne hj _ _
  constructor
  case inv =>
    apply inv_replaced h.inv
    rw [choiceAt, hmerges.isDelta]
    rfl
  case sized =>
    intro j hj
    by_cases hij : j = i
    · subst hij
      simpa [replaced] using hsize
    · simp only [replaced, hother j hj hij]
      exact h.sized j hj
  case counted =>
    have hnodup := h.inv.nodup
    rw [hevents, nodup_append, nodup_cons] at hnodup
    obtain ⟨-, ⟨hback, -⟩, hfront⟩ := hnodup
    have hsame : ∀ l : List Nat, i ∉ l →
        (l.map fun j => (Function.update b.heap i ⟨.delta (old.merged d kind), size⟩ j).size) =
          l.map fun j => (b.heap j).size := by
      intro l hl
      apply map_congr_left
      intro j hj
      rw [update_of_ne (by rintro rfl; exact hl hj)]
    have hcounted := h.counted
    simp only [replaced, hevents, map_append, map_cons, sum_append, sum_cons]
      at hcounted ⊢
    rw [hsame front fun hi => hfront i hi i mem_cons_self rfl, hsame back hback, hcounted,
      update_self]
    ring
  case fitsEvent =>
    intro j hj
    by_cases hij : j = i
    · subst hij
      simpa [replaced] using hmerges.fitsEvent
    · simp only [replaced, hother j hj hij]
      exact h.fitsEvent j hj
  case fitsBytes =>
    have hroom := hmerges.fitsBytes
    simp only [replaced]
    omega
  case fitsCount => exact h.fitsCount

theorem accounts_put (h : b.Accounts) {r : Except StreamError Unit}
    (hput : b.put event = (r, b')) : b'.Accounts := by
  rcases put_cases hput with ⟨_, -, rfl⟩ | ⟨-, d, i, old, kind, size, -, hmerges, rfl⟩ |
    ⟨-, happends, rfl⟩
  · exact h
  · exact accounts_replaced h hmerges
  · exact accounts_appended h happends

theorem accounts_pop (h : b.Accounts) (hpop : b.pop = some (event, b')) : b'.Accounts := by
  have hinv := inv_pop h.inv hpop
  unfold pop at hpop
  split at hpop
  · cases hpop
  · rename_i i rest hevents
    simp only [some.injEq, Prod.mk.injEq] at hpop
    obtain ⟨-, rfl⟩ := hpop
    have hnonneg : 0 ≤ (b.heap i).size := by
      rw [h.sized i (by simp [hevents])]
      exact eventSize_nonneg _
    have hcounted := h.counted
    have hcount := h.fitsCount
    rw [hevents, map_cons, sum_cons] at hcounted
    rw [hevents, length_cons] at hcount
    constructor
    case inv => exact hinv
    case sized => exact fun j hj => h.sized j (by simp [hevents, hj])
    case counted =>
      simp only
      omega
    case fitsEvent => exact fun j hj => h.fitsEvent j (by simp [hevents, hj])
    case fitsBytes =>
      have hroom := h.fitsBytes
      simp only
      omega
    case fitsCount =>
      simp only
      omega

theorem limits_pop (hpop : b.pop = some (event, b')) : b'.limits = b.limits := by
  unfold pop at hpop
  split at hpop
  · cases hpop
  · cases hpop
    rfl

theorem accounts_drainLoop (n : Nat) (h : b.Accounts) :
    (drainLoop n b).2.Accounts ∧ (drainLoop n b).2.limits = b.limits := by
  induction n generalizing b with
  | zero => exact ⟨h, rfl⟩
  | succ n ih =>
    rw [drainLoop]
    split
    · exact ⟨h, rfl⟩
    · cases hpop : b.pop with
      | none => exact ⟨h, rfl⟩
      | some result =>
        obtain ⟨event, b'⟩ := result
        obtain ⟨haccounts, hlimits⟩ := ih (accounts_pop h hpop)
        exact ⟨haccounts, hlimits.trans (limits_pop hpop)⟩

theorem accounts_fail (hbytes : 0 ≤ b.limits.maxBufferBytes) (error : StreamError) :
    (b.fail error).Accounts where
  inv := ⟨nodup_nil, by simp [fail], by simp [fail]⟩
  sized := by simp [fail]
  counted := rfl
  fitsEvent := by simp [fail]
  fitsBytes := hbytes
  fitsCount := zero_le

/-! ## Traces -/

/-- A call on the buffer. -/
inductive Call where
  | put (event : Event)
  | pop
  | drain
  | fail (error : StreamError)

/-- The buffer behind a call; a pop of an empty buffer waits. -/
def call (b : EventBuffer) : Call → EventBuffer
  | .put event => (b.put event).2
  | .pop => (b.pop.map Prod.snd).getD b
  | .drain => b.drain.2
  | .fail error => b.fail error

/-- The buffer behind a trace of calls. -/
def trace (limits : StreamLimits) (calls : List Call) : EventBuffer :=
  calls.foldl call (init limits)

theorem limits_put {r : Except StreamError Unit} (hput : b.put event = (r, b')) :
    b'.limits = b.limits := by
  rcases put_cases hput with ⟨_, -, rfl⟩ | ⟨-, d, i, old, kind, size, -, -, rfl⟩ | ⟨-, -, rfl⟩ <;> rfl

/-- Every call keeps the count and the limits. -/
theorem accounts_call (h : b.Accounts) (hbytes : 0 ≤ b.limits.maxBufferBytes) (c : Call) :
    (b.call c).Accounts ∧ (b.call c).limits = b.limits := by
  cases c with
  | put event => exact ⟨accounts_put h rfl, limits_put rfl⟩
  | pop =>
    rw [call]
    cases hpop : b.pop with
    | none => exact ⟨h, rfl⟩
    | some result => exact ⟨accounts_pop h hpop, limits_pop hpop⟩
  | drain => exact accounts_drainLoop _ h
  | fail error => exact ⟨accounts_fail hbytes error, rfl⟩

theorem accounts_trace {limits : StreamLimits} (hbytes : 0 ≤ limits.maxBufferBytes)
    (calls : List Call) :
    (trace limits calls).Accounts ∧ (trace limits calls).limits = limits := by
  induction calls using reverseRecOn with
  | nil => exact ⟨accounts_init hbytes, rfl⟩
  | append_singleton calls c ih =>
    obtain ⟨haccounts, hlimits⟩ := ih
    rw [trace, foldl_append, foldl_cons, foldl_nil]
    obtain ⟨hcall, hsame⟩ := accounts_call haccounts (by rw [hlimits]; exact hbytes) c
    exact ⟨hcall, hsame.trans hlimits⟩

end EventBuffer

/-- The checks of `StreamLimits.__post_init__` on the limits of the buffer. -/
structure StreamLimits.Valid (limits : StreamLimits) : Prop where
  events_pos : 0 < limits.maxBufferEvents
  bytes_pos : 0 < limits.maxBufferBytes
  event_pos : 0 < limits.maxEventBytes
  events_le : limits.maxBufferEvents ≤ 1024
  bytes_le : limits.maxBufferBytes ≤ 16 * 1024 * 1024
  event_le : limits.maxEventBytes ≤ limits.maxBufferBytes

/-- After any trace of calls the count is the sum of the sizes of the events, the events keep the
limits, and a put that raises leaves the buffer as it was. -/
theorem buffer_accounting {limits : StreamLimits} (hlimits : limits.Valid)
    (calls : List EventBuffer.Call) :
    (EventBuffer.trace limits calls).bytes =
        ((EventBuffer.trace limits calls).buffered.map eventSize).sum ∧
      (∀ event ∈ (EventBuffer.trace limits calls).buffered,
        eventSize event ≤ limits.maxEventBytes) ∧
      (EventBuffer.trace limits calls).bytes ≤ limits.maxBufferBytes ∧
      (EventBuffer.trace limits calls).buffered.length ≤ limits.maxBufferEvents ∧
      ∀ event error b', (EventBuffer.trace limits calls).put event = (.error error, b') →
        b' = EventBuffer.trace limits calls := by
  obtain ⟨haccounts, hsame⟩ := EventBuffer.accounts_trace (Int.le_of_lt hlimits.bytes_pos) calls
  set b := EventBuffer.trace limits calls
  have hsizes : b.buffered.map eventSize = b.events.map fun i => (b.heap i).size := by
    rw [EventBuffer.buffered, map_map]
    apply map_congr_left
    intro i hi
    exact (haccounts.sized i hi).symm
  refine ⟨?_, ?_, ?_, ?_, ?_⟩
  · rw [hsizes, haccounts.counted]
  · intro event hevent
    obtain ⟨i, hi, rfl⟩ := mem_map.mp hevent
    rw [← haccounts.sized i hi, ← hsame]
    exact haccounts.fitsEvent i hi
  · rw [← hsame]
    exact haccounts.fitsBytes
  · rw [EventBuffer.buffered, length_map, ← hsame]
    exact haccounts.fitsCount
  · intro event error b' hput
    rcases EventBuffer.put_cases hput with ⟨_, -, rfl⟩ | ⟨hok, -⟩ | ⟨hok, -⟩
    · rfl
    · cases hok
    · cases hok

/-- Two texts with escapes are joined. -/
theorem buffer_accounting_escapes :
    let b := EventBuffer.trace ⟨2, 100, 90⟩
      [.put (.delta ⟨0, .contentDelta, some "a\n", none, some [9], none⟩),
        .put (.delta ⟨0, .contentDelta, some "\"é", none, some [10], none⟩)]
    b.bytes = (b.buffered.map eventSize).sum ∧ (∀ event ∈ b.buffered, eventSize event ≤ 90) ∧
      b.bytes ≤ 100 ∧ b.buffered.length ≤ 2 ∧
      ∀ event error b', b.put event = (.error error, b') → b' = b :=
  buffer_accounting ⟨by decide, by decide, by decide, by decide, by decide, by decide⟩ _

end ArcticPlatform.Streaming
