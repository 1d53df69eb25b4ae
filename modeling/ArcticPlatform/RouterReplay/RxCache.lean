import ArcticPlatform.RouterReplay.CacheRuns

/-!
# Router replay: the RX cache is a bounded map

A cache without TX settings evicts nothing and has no tombstones.  It is compared
with one dictionary whose limit is on the bytes of the arrays in it.

Main results:

- Theorem `Holds.answer`: one call gives the same answer and keeps the entries equal.
- Theorem `rx_answers_eq`: the answers of every run are those of the dictionary.
-/

namespace ArcticPlatform.RouterReplay

open Dicts

namespace Cache

variable {A V : Type} {nbytes : A → Nat}

/-- What a call answers. -/
inductive Reply (A : Type) where
  | stored (result : Except CacheError Bool)
  | array (result : Except CacheError A)
  | arrays (entries : Dict String A)
  | done

section Replies

variable (coerce : V → A) (nbytes : A → Nat)

/-- One call and its answer. -/
def answer (c : Cache A) : Op V → Reply A × Cache A
  | .put sampleId value now => (c.put coerce nbytes sampleId value now).map .stored id
  | .putNew sampleId value before now =>
    (c.putNew coerce nbytes sampleId value before now).map .stored id
  | .get sampleId now => (c.get sampleId now).map .array id
  | .pop sampleId => (c.pop sampleId).map .array id
  | .discard sampleIds now => (.done, c.discard sampleIds now)
  | .clear => (.done, c.clear)
  | .snapshot now => (c.snapshot now).map .arrays id

/-- The array is stored if the arrays then held fit. -/
def mapPut (maxBytes : Nat) (held : Dict String A) (sampleId : String) (array : A) :
    Except CacheError Bool × Dict String A :=
  let held' := held.set sampleId array
  if held'.total nbytes > maxBytes then
    (.error (.full (held'.total nbytes) maxBytes sampleId), held)
  else (.ok true, held')

/-- A dictionary of arrays with a limit on their bytes, as it answers a call. -/
def mapAnswer (maxBytes : Nat) (held : Dict String A) : Op V → Reply A × Dict String A
  | .put sampleId value _ => (mapPut nbytes maxBytes held sampleId (coerce value)).map .stored id
  | .putNew sampleId value _ _ =>
    if (held.get? sampleId).isSome then (.stored (.error (.duplicate [sampleId])), held)
    else (mapPut nbytes maxBytes held sampleId (coerce value)).map .stored id
  | .get sampleId _ =>
    (.array ((held.get? sampleId).elim (.error (.keyError sampleId)) .ok), held)
  | .pop sampleId =>
    (.array ((held.get? sampleId).elim (.error (.keyError sampleId)) .ok), held.erase sampleId)
  | .discard sampleIds _ => (.done, sampleIds.foldl Dict.erase held)
  | .clear => (.done, .empty)
  | .snapshot _ => (.arrays held, held)

end Replies

/-- The answers of a run. -/
def answers {S I O : Type} (step : S → I → O × S) : S → List I → List O
  | _, [] => []
  | s, i :: rest => (step s i).1 :: answers step (step s i).2 rest

/-- An RX cache holds `held`. -/
structure Holds (nbytes : A → Nat) (maxBytes : Nat) (c : Cache A) (held : Dict String A) : Prop where
  tx : c.tx = none
  maxBytes_eq : c.maxBytes = maxBytes
  data : c.data = held
  sizes : ∀ sid, c.sizes.get? sid = (held.get? sid).map nbytes
  bytes : c.bytesInUse = held.total nbytes

variable {maxBytes : Nat} {c : Cache A} {held : Dict String A}

/-! ## Calls -/

section

variable (h : Holds nbytes maxBytes c held)
include h

theorem Holds.removeEntry (sid : String) :
    Holds nbytes maxBytes (c.removeEntry sid).1 (held.erase sid) := by
  have htotal := held.total_erase nbytes sid
  refine ⟨h.tx, h.maxBytes_eq, congrArg (Dict.erase · sid) h.data, fun x => ?_, ?_⟩
  · simp only [Cache.removeEntry, Dict.get?_erase, h.sizes]
    split <;> rfl
  · simp only [Cache.removeEntry, h.sizes, h.bytes]
    omega

theorem Holds.insertEntry (sampleId : String) (array : A) (now : ℚ) :
    (c.insertEntry nbytes sampleId array now).1 = (mapPut nbytes maxBytes held sampleId array).1 ∧
      Holds nbytes maxBytes (c.insertEntry nbytes sampleId array now).2
        (mapPut nbytes maxBytes held sampleId array).2 := by
  have htotal := held.total_set nbytes sampleId array
  have hprojected : c.bytesInUse - (((c.sizes.get? sampleId).getD 0 : Nat) : Int) +
      (nbytes array : Int) = (held.set sampleId array).total nbytes := by
    rw [h.sizes, h.bytes]
    omega
  simp only [Cache.insertEntry, evictForPut, h.tx, hprojected, h.maxBytes_eq, mapPut, Nat.cast_lt,
    gt_iff_lt]
  split
  · exact ⟨rfl, h⟩
  · refine ⟨rfl, h.tx, h.maxBytes_eq, congrArg (Dict.set · sampleId array) h.data, fun x => ?_, rfl⟩
    simp only [store, Dict.get?_set, h.sizes]
    split <;> rfl

theorem Holds.touch (times : Dict String ℚ) :
    Holds nbytes maxBytes { c with lastTouched := times } held :=
  ⟨h.tx, h.maxBytes_eq, h.data, h.sizes, h.bytes⟩

theorem Holds.discardOne (now : ℚ) (sid : String) :
    Holds nbytes maxBytes (c.discardOne now sid) (held.erase sid) := by
  rw [Cache.discardOne, h.tx, h.data]
  split_ifs with hpresent
  · exact h.removeEntry sid
  · simp at *
  · rwa [held.erase_of_get?_eq_none (Option.not_isSome_iff_eq_none.mp hpresent)]

theorem Holds.discard (sampleIds : List String) (now : ℚ) :
    Holds nbytes maxBytes (c.discard sampleIds now) (held.eraseAll sampleIds) := by
  rw [Cache.discard, h.tx]
  dsimp only
  induction sampleIds generalizing c held with
  | nil => exact h
  | cons sid rest ih => exact ih (h.discardOne now sid)

/-- An RX cache answers a call as the dictionary does. -/
theorem Holds.answer (coerce : V → A) (op : Op V) :
    (c.answer coerce nbytes op).1 = (mapAnswer coerce nbytes maxBytes held op).1 ∧
      Holds nbytes maxBytes (c.answer coerce nbytes op).2
        (mapAnswer coerce nbytes maxBytes held op).2 := by
  cases op with
  | put sampleId value now =>
    exact (h.insertEntry sampleId (coerce value) now).imp_left (congrArg Reply.stored)
  | putNew sampleId value before now =>
    simp only [Cache.answer, Cache.putNew, Cache.basePutNew, suppressPutNew, h.tx, h.data, mapAnswer,
      Option.isSome_none, Bool.false_and, Bool.false_eq_true, if_false]
    split
    · exact ⟨rfl, h⟩
    · exact (h.insertEntry sampleId (coerce value) now).imp_left (congrArg Reply.stored)
  | get sampleId now =>
    rw [Cache.answer, Cache.get, mapAnswer, ← h.data]
    cases c.data.get? sampleId with
    | none => exact ⟨rfl, h.data ▸ h⟩
    | some array => exact ⟨rfl, h.data ▸ h.touch _⟩
  | pop sampleId =>
    simp only [Cache.answer, Cache.pop, h.data, mapAnswer]
    cases hget : held.get? sampleId with
    | none => exact ⟨rfl, by rwa [held.erase_of_get?_eq_none hget]⟩
    | some array => exact ⟨rfl, h.removeEntry sampleId⟩
  | discard sampleIds now => exact ⟨rfl, h.discard sampleIds now⟩
  | clear => exact ⟨rfl, h.tx, h.maxBytes_eq, rfl, fun _ => rfl, rfl⟩
  | snapshot now => exact ⟨congrArg Reply.arrays h.data, h.touch _⟩

end

/-- An RX cache is a dictionary with a limit on its bytes: whatever the calls and the clock, it gives
the same answers, so what was stored and not removed is found again. -/
theorem rx_answers_eq (coerce : V → A) (nbytes : A → Nat) (maxBytes : Nat) (ops : List (Op V)) :
    answers (Cache.answer coerce nbytes) (init maxBytes none) ops =
      answers (mapAnswer coerce nbytes maxBytes) .empty ops := by
  have hrun : ∀ (c : Cache A) (held : Dict String A), Holds nbytes maxBytes c held →
      answers (Cache.answer coerce nbytes) c ops =
        answers (mapAnswer coerce nbytes maxBytes) held ops := by
    induction ops with
    | nil => exact fun _ _ _ => rfl
    | cons op rest ih =>
      intro c held h
      obtain ⟨hreply, hholds⟩ := h.answer coerce op
      rw [answers, answers, hreply, ih _ _ hholds]
  exact hrun _ _ ⟨rfl, rfl, rfl, fun _ => rfl, rfl⟩

end Cache
end ArcticPlatform.RouterReplay
