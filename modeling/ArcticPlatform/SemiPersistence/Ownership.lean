import ArcticPlatform.Library.Owners
import ArcticPlatform.SemiPersistence.Orchestrator

/-!
# Owners of slots

Every live slot has one owner: a model whose entry has it, or whose worker has it in a local
variable.

Main results:

- Theorem `slots_owned`: that is so in every run whose steps meet `Guarded`, no slot is
  given back twice, and the live slots are those of the entries when no operation is left.
-/

namespace ArcticPlatform.SemiPersistence

open List Function
open Option hiding all_eq_true

/-! ## Calls of the pool of slots -/

theorem Valid.live_nodup {τ : Type} {s : SlotsState τ} (hvalid : Valid s) : s.live.Nodup := by
  rw [nodup_iff_count_le_one]
  intro slot
  have hcount : (s.liveOn slot.gpuId).count slot = s.live.count slot := count_filter (by simp)
  rw [← hcount]
  by_cases hgpu : slot.gpuId ∈ s.lastUsed.keys
  · have hnodup := (DyadicBlocks.Tiles.nodup (hvalid.tile _ hgpu)).of_map
    exact nodup_iff_count_le_one.mp (nodup_append.mp hnodup).2.1 slot
  · rw [(hvalid.outside _ hgpu).2]
    simp

/-- What a call that asks for a slot does: it takes a slot that was not live, or none. -/
structure Asked (s : SlotsState Nat) (r : SlotsState Nat × Except Assertion (Option Slot)) : Prop where
  valid : Valid r.1
  inited : r.1.inited = s.inited
  taken : ∀ slot, r.2 = .ok (some slot) → r.1.live = slot :: s.live
  none : r.2 = .ok none → r.1.live = s.live

variable {s : SlotsState Nat}

theorem attempt_asked (hvalid : Valid s) (me : Waiter) :
    Asked s ((attempt s me).1, .ok (attempt s me).2) := by
  refine ⟨attempt_valid hvalid me, ?_, ?_, ?_⟩
  all_goals
    unfold attempt
    split_ifs
    · split <;> simp
    · simp

theorem allocate_asked (hvalid : Valid s) (me : Waiter) : Asked s (allocate s me) := by
  unfold allocate
  split_ifs
  · exact ⟨hvalid, rfl, by simp, by simp⟩
  · exact ⟨hvalid, rfl, by simp, by simp⟩
  · have h := attempt_asked (hvalid.withWaiters (s.waiters ++ [me])) me
    exact ⟨h.valid, h.inited, h.taken, h.none⟩

theorem wakeUp_asked (hvalid : Valid s) (me : Waiter) : Asked s (wakeUp s me) := by
  unfold wakeUp
  split_ifs
  · exact attempt_asked hvalid me
  · exact ⟨hvalid, rfl, by simp, by simp⟩

theorem tryAllocate_asked (hvalid : Valid s) (level : Nat) (gpu : Option Nat) :
    Asked s (tryAllocate s level gpu) := by
  refine ⟨tryAllocate_valid hvalid level gpu, ?_, ?_, ?_⟩
  all_goals
    unfold tryAllocate
    split_ifs
    · simp
    · simp
    · split <;> simp

theorem deallocate_live (hinited : s.inited = true) {slot : Slot} (hlive : slot ∈ s.live) (now : Nat) :
    (deallocate s slot now).1.live = s.live.erase slot := by
  simp [deallocate, hinited, hlive]

theorem deallocate_inited (s : SlotsState Nat) (slot : Slot) (now : Nat) :
    (deallocate s slot now).1.inited = s.inited := by
  unfold deallocate
  split_ifs <;> rfl

namespace Orchestrator

open Runs Ownership

/-! ## Owners -/

/-- The slot in a local variable -/
def Instr.held : Instr → Option Slot
  | .registerEntry slot | .coldStart slot | .registerRelease slot | .record slot | .commit slot =>
    some slot
  | _ => none

/-- The slot of the entry -/
def Registered.slot (x : Registered) : Option Slot := x.entry.bind Entry.slot

/-- The slots in local variables of the worker -/
def ModelPipeline.held (x : ModelPipeline) : List Slot := x.code.filterMap Instr.held

/-- The slots of a model and of one worker -/
def Model.owned (x : Model) : List Slot := x.slot.toList ++ x.held

/-- The slots of a model: that of its entry, and those in local variables of all of its workers -/
def State.owned (s : State) (m : Nat) : List Slot :=
  (s.models m).slot.toList ++ (range (s.made m)).flatMap fun g => (s.pipes (m, g)).held

/-- No operation is executed, and so no command of a worker is outstanding. -/
def State.Quiet (s : State) : Prop := ∀ p, (s.pipes p).code = []

/-- Every live slot has one owner, the slots of entries are live, none is given back twice, and when
no operation is left the live slots are those of the entries. -/
structure SlotsOwned (s : State) : Prop where
  owner : ∀ slot ∈ s.shared.slots.live, ∃! m, slot ∈ s.owned m
  once : ∀ m, (s.owned m).Nodup
  live : ∀ m slot, (s.models m).slot = some slot → slot ∈ s.shared.slots.live
  freedOnce : s.shared.freedTwice = false
  quiet : s.Quiet → ∀ slot, slot ∈ s.shared.slots.live ↔ ∃ m, (s.models m).slot = some slot

/-- The condition on an instruction of a worker: a cold start succeeds, and what writes over the slot
of an entry, or takes the entry away, finds no slot in it; a model that starts has an entry. -/
def instrGuarded (x : Model) (c : Choice) : Instr → Bool
  | .registerEntry _ => x.entry.isSome && x.slot.isNone
  | .coldStart _ => c.ok
  | .record _ | .place _ | .removePop => x.slot.isNone
  | _ => true

/-- The condition on a step: an instruction meets its own, and a pipeline is taken out of `_pipelines`
only when its worker has ended. -/
def Guarded (s : State) : Act → Prop
  | .work p c => (s.pipes p).code.head?.all (instrGuarded (s.view p) c) = true
  | .drop k => ∀ t ∈ s.teardowns[k]?, ∀ g ∈ s.pipelines t.pipe.1, s.ended (t.pipe.1, g) = true
  | _ => True

instance (s : State) (a : Act) : Decidable (Guarded s a) := by
  cases a <;> unfold Guarded <;> infer_instance

/-! ## The shape of the code of a worker -/

/-- The instructions that rely on nothing that was found before -/
def Instr.plain : Instr → Bool
  | .registerEntry _ | .coldStart _ | .registerRelease _ | .record _ | .commit _ | .tierB => false
  | _ => true

/-- All instructions are plain ones. -/
def Free (code : List Instr) : Prop := code.all Instr.plain = true

/-- Only the next instruction is not a plain one; the entry is there when a slot goes into it, and
has none when the instruction is a commit or the second tier. -/
def Model.Shaped (x : Model) : Prop :=
  Free x.code.tail ∧ ∀ i ∈ x.code.head?, match i with
      | .commit _ | .tierB => x.entry.isSome ∧ x.slot = none
      | .record _ | .coldStart _ | .registerRelease _ => x.entry.isSome
      | _ => True

theorem free_nil : Free [] := rfl

theorem free_append {code code' : List Instr} (h : Free code) (h' : Free code') :
    Free (code ++ code') := by
  rw [Free, all_append, h, h']
  rfl

variable {i : Instr}

theorem free_cons {code : List Instr} (hi : i.plain = true) (h : Free code) : Free (i :: code) := by
  rw [Free, all_cons, hi, h]
  rfl

theorem held_of_plain (hi : i.plain = true) : i.held = none := by
  cases i <;> first | rfl | cases hi

theorem held_of_free {code : List Instr} (h : Free code) : code.filterMap Instr.held = [] := by
  rw [filterMap_eq_nil_iff]
  intro i hi
  exact held_of_plain (all_eq_true.mp h i hi)

theorem free_stepUp (gpu : Option Nat) (announce : Bool) (r : Rung) :
    Free (stepUp gpu announce r) := by
  cases r <;> cases gpu <;> rfl

theorem free_stepDown (r : Rung) : Free (stepDown r) := by
  cases r <;> rfl

theorem free_flatMap {rungs : List Rung} {f : Rung → List Instr} (h : ∀ r, Free (f r)) :
    Free (rungs.flatMap f) := by
  induction rungs with
  | nil => exact free_nil
  | cons r rungs ih => exact free_append (h r) ih

theorem free_walkUp (current target : Rung) (gpu : Option Nat) (announce : Bool) :
    Free (walkUp current target gpu announce) :=
  free_flatMap fun r => free_cons rfl (free_stepUp gpu announce r)

theorem free_walkDown (current target : Rung) : Free (walkDown current target) :=
  free_flatMap fun r => free_cons rfl (free_stepDown r)

theorem free_walk (e : Entry) (current target : Rung) (gpu : Option Nat) (announce : Bool) :
    Free (walk e current target gpu announce) := by
  unfold walk
  split
  · apply free_append
    · split_ifs
      · exact free_append (free_walkDown _ _) (free_cons rfl (free_stepUp _ _ _))
      · exact free_nil
      · exact free_walkUp _ _ _ _
      · exact free_walkDown _ _
    · rfl
  · split_ifs
    · exact free_walkUp _ _ _ _
    · exact free_walkDown _ _

/-! ## What an instruction does to the slots -/

/-- What an instruction keeps. -/
structure Kept (sh : Shared) (x : Model) (sh' : Shared) (x' : Model) : Prop where
  valid : Valid sh'.slots
  inited : sh'.slots.inited = true
  freedOnce : sh'.freedTwice = sh.freedTwice
  shaped : x'.Shaped
  moved : Moved sh.slots.live x.owned sh'.slots.live x'.owned

/-- What the instructions rely on. -/
structure Sound (sh : Shared) (x : Model) : Prop where
  valid : Valid sh.slots
  inited : sh.slots.inited = true
  shaped : x.Shaped
  owned : ∀ slot ∈ x.owned, slot ∈ sh.slots.live

variable {sh : Shared} {x : Model} {e : Entry} {c : Choice} {rest code : List Instr}

theorem shaped_of_free (h : Free x.code) : x.Shaped := by
  cases hcode : x.code with
  | nil => exact ⟨by rw [hcode]; exact free_nil, by rw [hcode]; simp⟩
  | cons i rest =>
    rw [hcode, Free, all_cons, Bool.and_eq_true] at h
    refine ⟨?_, ?_⟩
    · rw [hcode]
      exact h.2
    · rw [hcode]
      intro j hj
      cases hj
      have hi := h.1
      cases i <;> trivial

theorem Sound.free_rest (hx : Sound sh x) (hcode : x.code = i :: rest) : Free rest := by
  have h := hx.shaped.1
  rw [hcode] at h
  exact h

theorem Sound.held (hx : Sound sh x) (hcode : x.code = i :: rest) : x.held = i.held.toList := by
  have h : rest.filterMap Instr.held = [] := held_of_free (hx.free_rest hcode)
  rw [ModelPipeline.held, hcode, filterMap_cons]
  cases i.held with
  | none => exact h
  | some slot => simp [h]

theorem kept_same {sh' : Shared} {x' : Model} (hx : Sound sh x) (hheld : x.held = [])
    (hslots : sh'.slots = sh.slots) (hfreed : sh'.freedTwice = sh.freedTwice)
    (hslot : x'.slot = x.slot) (hfree : Free x'.code) : Kept sh x sh' x' := by
  refine ⟨hslots ▸ hx.valid, hslots ▸ hx.inited, hfreed, shaped_of_free hfree, ?_⟩
  have howned : x'.owned = x.owned := by
    rw [Model.owned, Model.owned, hslot, hheld, ModelPipeline.held, held_of_free hfree]
  rw [hslots, howned]
  exact .same

theorem resolve_slots (sh : Shared) (x : Model) (r : Option Raise) :
    (sh.resolve x r).slots = sh.slots := by
  unfold Shared.resolve
  split <;> rfl

theorem resolve_freedTwice (sh : Shared) (x : Model) (r : Option Raise) :
    (sh.resolve x r).freedTwice = sh.freedTwice := by
  unfold Shared.resolve
  split <;> rfl

variable {y : Model}

theorem raise_kept_of {sh' : Shared} (hx : Sound sh x) (hheld : x.held = [])
    (hslots : sh'.slots = sh.slots) (hfreed : sh'.freedTwice = sh.freedTwice)
    (hslot : y.slot = x.slot) (r : Raise) :
    Kept sh x (raise sh' y r).shared (raise sh' y r).model := by
  have hfree : Free (raise sh' y r).model.code := by
    cases r <;> rfl
  exact kept_same hx hheld ((resolve_slots sh' y _).trans hslots)
    ((resolve_freedTwice sh' y _).trans hfreed) hslot hfree

theorem raise_kept (hx : Sound sh x) (hheld : x.held = []) (hslot : y.slot = x.slot) (r : Raise) :
    Kept sh x (raise sh y r).shared (raise sh y r).model := raise_kept_of hx hheld rfl rfl hslot r

theorem goto_kept (hx : Sound sh x) (hheld : x.held = []) (hslot : y.slot = x.slot)
    (hfree : Free code) : Kept sh x (goto sh y code).shared (goto sh y code).model :=
  kept_same hx hheld rfl rfl hslot hfree

/-- A call that asks for a slot: a slot that it takes is that of the next instruction. -/
theorem allocated_kept (hx : Sound sh x) (hheld : x.held = [])
    {r : SlotsState Nat × Except Assertion (Option Slot)} (hasked : Asked sh.slots r)
    (hy : y.slot = x.slot) {taken : Slot → List Instr}
    (htaken : ∀ slot, { y with code := taken slot }.Shaped ∧
      (taken slot).filterMap Instr.held = [slot])
    {z : Model} (hz : z.slot = x.slot) {waiting : List Instr}
    (hwaiting : { z with code := waiting }.Shaped ∧ waiting.filterMap Instr.held = []) :
    Kept sh x (allocated sh y r taken z waiting).shared (allocated sh y r taken z waiting).model := by
  have hinited : r.1.inited = true := hasked.inited.trans hx.inited
  unfold allocated
  split
  · next slot hr =>
    obtain ⟨hshaped, hnew⟩ := htaken slot
    refine ⟨hasked.valid, hinited, rfl, hshaped, ?_⟩
    have howned : (goto { sh with slots := r.1 } y (taken slot)).model.owned = x.slot.toList ++ [slot] := by
      rw [Model.owned, ModelPipeline.held, goto, ← hy]
      exact congrArg _ hnew
    rw [howned]
    have hlive : r.1.live = slot :: sh.slots.live := hasked.taken slot hr
    rw [Model.owned, hheld, append_nil]
    exact hlive ▸ .taken slot (perm_append_singleton slot _)
  · next hr =>
    have hlive : r.1.live = sh.slots.live := hasked.none hr
    refine ⟨hasked.valid, hinited, rfl, hwaiting.1, ?_⟩
    have howned : (goto { sh with slots := r.1 } z waiting).model.owned = x.owned := by
      rw [Model.owned, Model.owned, hheld, ← hz]
      exact congrArg _ hwaiting.2
    rw [howned]
    exact hlive ▸ .same
  · exact raise_kept hx hheld hy .other

variable {slot : Slot}

theorem given_kept (hx : Sound sh x) (hslot : x.slot = some slot) (now : Nat) (hy : y.slot = none)
    (hheld : y.held = x.held) (hshaped : y.Shaped) : Kept sh x (sh.deallocate slot now) y := by
  have hx' : x.owned = slot :: x.held := by rw [Model.owned, hslot]; rfl
  have hy' : y.owned = x.held := by rw [Model.owned, hy, hheld]; rfl
  have hlive : slot ∈ sh.slots.live := hx.owned slot (by simp [hx'])
  have herase : (sh.deallocate slot now).slots.live = sh.slots.live.erase slot :=
    deallocate_live hx.inited hlive now
  refine ⟨deallocate_valid hx.valid slot now, ?_, rfl, hshaped, ?_⟩
  · exact (deallocate_inited _ _ _).trans hx.inited
  · rw [hx', hy', herase]
    exact .given slot (.refl _)

theorem release_kept (hx : Sound sh x) (hheld : x.held = []) (hentry : x.entry = some e) (now : Nat)
    {f : Entry → Entry} (hf : ∀ e, (f e).slot = e.slot) (hfree : Free code) :
    Kept sh x (release sh x e now f code).shared (release sh x e now f code).model := by
  have hs : x.slot = e.slot := by rw [Registered.slot, hentry, bind_some]
  unfold release giveBack
  cases hslot : e.slot with
  | none =>
    apply kept_same hx hheld rfl rfl _ hfree
    rw [hs, hslot]
    exact (hf e).trans hslot
  | some slot =>
    have hlive : slot ∈ sh.slots.live := hx.owned slot (by simp [Model.owned, hs, hslot])
    simp only [hlive, if_true]
    apply given_kept hx (hs.trans hslot) now
    · exact hf { e with slot := none }
    · rw [hheld]
      exact held_of_free hfree
    · exact shaped_of_free hfree

theorem shaped_tierTaken (hentry : x.entry.isSome) (hslot : x.slot = none)
    (hrest : Free rest) (e : Entry) (slot : Slot) :
    { x with code := tierTaken e slot rest }.Shaped ∧
      (tierTaken e slot rest).filterMap Instr.held = [slot] := by
  have hfree : Free ((if e.gpu = some slot.gpuId then [] else migrate slot.gpuId) ++
      .setGpu slot.gpuId :: rest) := by
    apply free_append
    · split_ifs
      · exact free_nil
      · rfl
    · exact free_cons rfl hrest
  refine ⟨⟨hfree, ?_⟩, ?_⟩
  · intro i hi
    cases hi
    exact ⟨hentry, hslot⟩
  · rw [tierTaken, cons_append, filterMap_cons]
    simp only [Instr.held]
    exact congrArg _ (held_of_free hfree)

theorem shaped_next (hi : i.held = some slot) (hrest : Free rest)
    (hnext : { x with code := i :: rest }.Shaped) :
    { x with code := i :: rest }.Shaped ∧ (i :: rest).filterMap Instr.held = [slot] := by
  refine ⟨hnext, ?_⟩
  rw [filterMap_cons, hi]
  exact congrArg _ (held_of_free hrest)

theorem shaped_record (hentry : x.entry.isSome) (hrest : Free rest) (slot : Slot) :
    { x with code := .record slot :: rest }.Shaped ∧
      (Instr.record slot :: rest).filterMap Instr.held = [slot] := by
  refine shaped_next rfl hrest ⟨hrest, fun j hj => ?_⟩
  cases hj
  exact hentry

theorem shaped_tierB (hentry : x.entry.isSome) (hslot : x.slot = none) (hrest : Free rest) :
    { x with code := .tierB :: rest }.Shaped ∧ (Instr.tierB :: rest).filterMap Instr.held = [] := by
  refine ⟨⟨hrest, fun j hj => ?_⟩, ?_⟩
  · cases hj
    exact ⟨hentry, hslot⟩
  · rw [filterMap_cons]
    exact held_of_free hrest

theorem shaped_wait (hi : i.plain = true) (hrest : Free rest) :
    { x with code := i :: rest }.Shaped ∧ (i :: rest).filterMap Instr.held = [] :=
  ⟨shaped_of_free (free_cons hi hrest), held_of_free (free_cons hi hrest)⟩

variable {m : Nat} {r : Effect} {s : State} {p : Pid}

theorem execMissing_kept (hx : Sound sh x) (hcode : x.code = i :: rest) (hi : i.held = none)
    (h : execMissing m sh x rest i = some r) : Kept sh x r.shared r.model := by
  have hrest := hx.free_rest hcode
  have hheld : x.held = [] := by rw [hx.held hcode, hi]; rfl
  have hregister : ∀ slot, { x with code := .registerEntry slot :: rest }.Shaped ∧
      (Instr.registerEntry slot :: rest).filterMap Instr.held = [slot] := by
    intro slot
    refine shaped_next rfl hrest ⟨hrest, ?_⟩
    intro j hj
    cases hj
    trivial
  cases i
  case registerAllocate =>
    cases h
    exact allocated_kept hx hheld (allocate_asked hx.valid _) rfl hregister rfl (shaped_wait rfl hrest)
  case registerWait =>
    cases h
    exact allocated_kept hx hheld (wakeUp_asked hx.valid _) rfl hregister rfl (shaped_wait rfl hrest)
  case pauseBegin | resumeBegin | removeBegin | evictBegin =>
    cases h
    exact goto_kept hx hheld rfl hrest
  case ret =>
    cases h
    exact kept_same hx hheld (resolve_slots sh x _) (resolve_freedTwice sh x _) rfl free_nil
  case failInflight | failRelease =>
    cases h
    exact goto_kept hx hheld rfl free_nil
  case await | visitSend | visitAwait | visitRelease => cases h
  all_goals
    cases h
    exact raise_kept hx hheld rfl .other

/-- The instructions with a slot in a local variable -/
theorem exec_kept_held (hx : Sound sh x) (hcode : x.code = i :: rest)
    (hentry : x.entry = some e) (hi : i.held = some slot) (hguard : instrGuarded x c i = true)
    (h : exec s p sh x e c rest i = some r) : Kept sh x r.shared r.model := by
  have hrest := hx.free_rest hcode
  have hheld : x.held = [slot] := by rw [hx.held hcode, hi]; rfl
  have hs : x.slot = e.slot := by rw [Registered.slot, hentry, bind_some]
  have howned : x.owned = e.slot.toList ++ [slot] := by rw [Model.owned, hs, hheld]
  -- The slot stays where it is, or goes into the entry.
  have hkept : ∀ x' : Model, x'.Shaped → x'.owned = x.owned → Kept sh x sh x' := by
    intro x' hshaped hsame
    exact ⟨hx.valid, hx.inited, rfl, hshaped, hsame ▸ .same⟩
  have hheldNext : ∀ j : Instr, j.held = some slot → (j :: rest).filterMap Instr.held = [slot] := by
    intro j hj
    rw [filterMap_cons, hj]
    exact congrArg _ (held_of_free hrest)
  cases i <;> cases hi
  case registerEntry =>
    have hnone : e.slot = none := by
      simp only [instrGuarded, Bool.and_eq_true, isNone_iff_eq_none] at hguard
      rw [← hs]
      exact hguard.2
    cases h
    apply hkept
    · exact ⟨hrest, fun j hj => by cases hj; rfl⟩
    · rw [howned, hnone]
      exact hheldNext (.coldStart slot) rfl
  case coldStart =>
    have hok : c.ok = true := hguard
    simp only [exec, hok, if_true] at h
    cases h
    apply hkept
    · refine ⟨hrest, fun j hj => ?_⟩
      cases hj
      simp [goto, hentry]
    · rw [howned, ← hs]
      exact congrArg _ (hheldNext (.registerRelease slot) rfl)
  case registerRelease =>
    have hlive : slot ∈ sh.slots.live := hx.owned slot (by simp [howned])
    simp only [exec, hlive, if_true] at h
    cases h
    refine ⟨deallocate_valid hx.valid slot c.now, ?_, rfl, shaped_of_free hrest, ?_⟩
    · exact (deallocate_inited _ _ _).trans hx.inited
    · have herase : (sh.deallocate slot c.now).slots.live = sh.slots.live.erase slot :=
        deallocate_live hx.inited hlive c.now
      have hleft : (write (sh.deallocate slot c.now) x
          { e with state := .at .saved, inst := false, gpu := none } rest).model.owned =
          e.slot.toList := by
        rw [Model.owned, ModelPipeline.held]
        simp only [write, goto, Registered.slot, bind_some]
        rw [held_of_free hrest, append_nil]
      rw [hleft, howned]
      exact herase ▸ .given slot (perm_append_singleton slot _)
  case record =>
    have hnone : e.slot = none := by
      rw [← hs]
      exact isNone_iff_eq_none.mp hguard
    cases h
    apply hkept
    · exact shaped_of_free hrest
    · rw [howned, hnone, Model.owned, ModelPipeline.held]
      exact congrArg _ (held_of_free hrest)
  case commit =>
    have hnone : e.slot = none := by
      have hshaped := hx.shaped.2
      rw [hcode] at hshaped
      rw [← hs]
      exact (hshaped _ rfl).2
    cases h
    apply hkept
    · exact shaped_of_free hrest
    · rw [howned, hnone, Model.owned, ModelPipeline.held]
      exact congrArg _ (held_of_free hrest)

theorem free_evictCheck (peers : List Nat) : Free (peers.map Instr.evictCheck) := by
  induction peers with
  | nil => exact free_nil
  | cons peer peers ih => exact free_cons rfl ih

theorem stop_slot (e : Entry) : e.stop.slot = e.slot := by
  unfold Entry.stop
  split_ifs <;> rfl

section Free

variable (hx : Sound sh x) (hheld : x.held = [])

include hx hheld

/-- An instruction that goes on or raises. -/
theorem ite_kept {q : Prop} [Decidable q] (hy : y.slot = x.slot) (hcode : Free code) (r : Raise) :
    Kept sh x (if q then goto sh y code else raise sh x r).shared
      (if q then goto sh y code else raise sh x r).model := by
  split_ifs
  · exact goto_kept hx hheld hy hcode
  · exact raise_kept hx hheld rfl r

variable (hrest : Free rest)

include hrest

/-- An instruction that puts others before the rest. -/
theorem before_kept {q : Prop} [Decidable q] {first second : List Instr} (hfirst : Free first)
    (hsecond : Free second) :
    Kept sh x (goto sh x ((if q then first else second) ++ rest)).shared
      (goto sh x ((if q then first else second) ++ rest)).model := by
  refine goto_kept hx hheld rfl (free_append ?_ hrest)
  split_ifs
  · exact hfirst
  · exact hsecond

theorem moveBegin_kept (target : Rung) (gpu : Option Nat) (announce : Bool) :
    Kept sh x (moveBegin sh x e target gpu announce rest).shared
      (moveBegin sh x e target gpu announce rest).model := by
  unfold moveBegin
  split
  · split_ifs
    · exact goto_kept hx hheld rfl hrest
    · exact raise_kept hx hheld rfl .other
  · split_ifs
    · exact goto_kept hx hheld rfl hrest
    · exact goto_kept hx hheld rfl (free_append rfl (free_cons rfl hrest))
    · exact goto_kept hx hheld rfl (free_append free_nil (free_cons rfl hrest))
    · exact goto_kept hx hheld rfl (free_append (free_walk _ _ _ _ _) hrest)
  · exact raise_kept hx hheld rfl .other
  · exact raise_kept hx hheld rfl .other

/-- The instructions that look for incumbents and wait for their workers -/
theorem peers_kept (hi : match i with
      | .scan | .evictCheck _ | .peerFind _ | .peerSet _ _ | .peerWalk _ _ _ _ | .peerPut _ _
      | .peerAwait _ _ => True
      | _ => False) (h : exec s p sh x e c rest i = some r) : Kept sh x r.shared r.model := by
  cases i
  case scan =>
    cases h
    exact ite_kept hx hheld rfl (free_append (free_evictCheck _) hrest) .other
  case evictCheck =>
    simp only [exec] at h
    split at h <;> cases h
    · exact raise_kept hx hheld rfl .other
    · split_ifs
      · exact goto_kept hx hheld rfl (free_cons rfl hrest)
      · exact goto_kept hx hheld rfl hrest
  case peerFind =>
    cases h
    apply goto_kept hx hheld rfl
    split <;> exact free_cons rfl hrest
  case peerSet =>
    cases h
    refine kept_same hx hheld rfl rfl rfl (free_cons ?_ hrest)
    split_ifs <;> rfl
  case peerWalk node seen =>
    cases node with
    | none =>
      cases h
      exact goto_kept hx hheld rfl (free_cons rfl hrest)
    | some node =>
      simp only [exec] at h
      split_ifs at h <;> cases h
      · apply raise_kept_of hx hheld <;> rfl
      · exact goto_kept hx hheld rfl (free_cons rfl hrest)
      · exact goto_kept hx hheld rfl (free_cons rfl hrest)
  case peerPut =>
    cases h
    exact kept_same hx hheld rfl rfl rfl (free_cons rfl hrest)
  case peerAwait mine ticket =>
    obtain ⟨⟨ticket, outcome⟩, -, hr⟩ := map_eq_some_iff.mp h
    cases outcome <;> cases hr
    · exact kept_same hx hheld rfl rfl rfl hrest
    · apply raise_kept_of hx hheld <;> rfl
  all_goals cases hi

variable (hentry : x.entry = some e)

include hentry

/-- The instructions that ask for a slot -/
theorem asking_kept (hcode : x.code = i :: rest) (hi : match i with
      | .allocate | .allocateWait | .tierA | .tierB | .acquire => True
      | _ => False) (h : exec s p sh x e c rest i = some r) : Kept sh x r.shared r.model := by
  have hs : x.slot = e.slot := by rw [Registered.slot, hentry, bind_some]
  have hsome : x.entry.isSome := by rw [hentry]; rfl
  cases i
  case allocate =>
    have hwait : { x with entry := some { e with state := .wait } }.slot = x.slot := hs.symm
    cases h
    exact allocated_kept hx hheld (allocate_asked hx.valid _) rfl (shaped_record hsome hrest) hwait
      (shaped_wait rfl hrest)
  case allocateWait =>
    have hback : { x with entry := some { e with state := .at .checkpoint } }.slot = x.slot :=
      hs.symm
    cases h
    exact allocated_kept hx hheld (wakeUp_asked hx.valid _) hback (shaped_record rfl hrest) rfl
      (shaped_wait rfl hrest)
  case tierA =>
    simp only [exec] at h
    split_ifs at h with hslot <;> cases h
    · exact allocated_kept hx hheld (tryAllocate_asked hx.valid _ _) rfl
        (shaped_tierTaken hsome (hs.trans hslot) hrest e) rfl
        (shaped_tierB hsome (hs.trans hslot) hrest)
    · exact goto_kept hx hheld rfl hrest
  case tierB =>
    have hslot : x.slot = none := by
      have hshaped := hx.shaped.2
      rw [hcode] at hshaped
      exact (hshaped _ rfl).2
    have hback : Free (stepDown .sleep ++ stepUp none false .checkpoint ++ .readSlot :: rest) :=
      free_append rfl (free_cons rfl hrest)
    cases h
    exact allocated_kept hx hheld (tryAllocate_asked hx.valid _ _) rfl
      (shaped_tierTaken hsome hslot hrest e) rfl ⟨shaped_of_free hback, held_of_free hback⟩
  case acquire =>
    simp only [exec] at h
    split_ifs at h with hslot <;> cases h
    · have htaken : ∀ slot, { x with code := .commit slot :: rest }.Shaped ∧
          (Instr.commit slot :: rest).filterMap Instr.held = [slot] := by
        intro slot
        refine shaped_next rfl hrest ⟨hrest, fun j hj => ?_⟩
        cases hj
        exact ⟨hsome, hs.trans hslot⟩
      exact allocated_kept hx hheld (tryAllocate_asked hx.valid _ _) rfl htaken rfl
        (shaped_wait rfl hrest)
    · exact goto_kept hx hheld rfl hrest
  all_goals cases hi

end Free

/-- The instructions without a slot in a local variable -/
theorem exec_kept_free (hx : Sound sh x) (hcode : x.code = i :: rest) (hentry : x.entry = some e)
    (hi : i.held = none) (hguard : instrGuarded x c i = true)
    (h : exec s p sh x e c rest i = some r) : Kept sh x r.shared r.model := by
  have hrest := hx.free_rest hcode
  have hheld : x.held = [] := by rw [hx.held hcode, hi]; rfl
  have hs : x.slot = e.slot := by rw [Registered.slot, hentry, bind_some]
  cases i <;> try (cases hi; done)
  case registerAllocate | registerWait | ret => exact execMissing_kept (m := p.1) hx hcode rfl h
  case allocate | allocateWait | tierA | tierB | acquire =>
    exact asking_kept hx hheld hrest hentry hcode trivial h
  case scan | evictCheck | peerFind | peerSet | peerWalk | peerPut | peerAwait =>
    exact peers_kept hx hheld hrest trivial h
  case await | visitSend | visitAwait | visitRelease => cases h
  case moveBegin target gpu announce =>
    cases h
    exact moveBegin_kept hx hheld hrest target gpu announce
  case moveAnnounce =>
    simp only [exec] at h
    split_ifs at h <;> cases h
    · exact kept_same hx hheld rfl rfl hs.symm hrest
    · exact goto_kept hx hheld rfl (free_cons rfl hrest)
  case moveWalk =>
    simp only [exec] at h
    split at h <;> cases h
    · exact goto_kept hx hheld rfl (free_append (free_walk _ _ _ _ _) hrest)
    · exact raise_kept hx hheld rfl .other
  case check | acked =>
    cases h
    exact ite_kept hx hheld rfl hrest _
  case send =>
    cases h
    refine ite_kept hx hheld ?_ ?_ .other
    · rfl
    · exact free_cons rfl hrest
  case restoreImage | teardown =>
    simp only [exec] at h
    split_ifs at h <;> cases h
    · exact kept_same hx hheld rfl rfl hs.symm hrest
    · exact raise_kept hx hheld rfl .other
  case setSleep | migrateOut | migrateIn | setGpu | setUp | resumeDone =>
    cases h
    exact kept_same hx hheld rfl rfl hs.symm hrest
  case place =>
    have hnone : x.slot = none := isNone_iff_eq_none.mp hguard
    cases h
    exact kept_same hx hheld rfl rfl hnone.symm hrest
  case removePop =>
    have hnone : x.slot = none := isNone_iff_eq_none.mp hguard
    cases h
    exact kept_same hx hheld rfl rfl hnone.symm hrest
  case readSlot =>
    simp only [exec] at h
    split at h <;> cases h
    · exact goto_kept hx hheld rfl (free_cons rfl hrest)
    · exact raise_kept hx hheld rfl .other
  case releaseTo | dropSlot | pauseRelease =>
    cases h
    exact release_kept hx hheld hentry c.now (fun _ => rfl) hrest
  case failRelease =>
    cases h
    exact release_kept hx hheld hentry c.now stop_slot free_nil
  case retreat =>
    cases h
    have hfree := free_append (free_stepUp none false .sleep) hrest
    rw [append_assoc]
    exact before_kept hx hheld hfree (free_stepDown .up) free_nil
  case evictBegin =>
    cases h
    exact before_kept hx hheld hrest (free_stepDown .up) free_nil
  case generateBegin =>
    cases h
    exact before_kept hx hheld (free_cons rfl (free_cons rfl hrest)) free_nil rfl
  case pauseBegin =>
    cases h
    exact before_kept hx hheld hrest free_nil rfl
  case removeBegin =>
    cases h
    exact before_kept hx hheld (free_cons rfl hrest) free_nil rfl
  case generateSubmit =>
    simp only [exec] at h
    split_ifs at h <;> cases h
    · exact raise_kept hx hheld rfl .other
    · exact goto_kept hx hheld rfl hrest
    · exact goto_kept hx hheld rfl hrest
  case resumeBegin =>
    simp only [exec] at h
    split_ifs at h <;> cases h
    · exact goto_kept hx hheld rfl hrest
    · exact kept_same hx hheld rfl rfl hs.symm hrest
    · apply goto_kept hx hheld rfl
      have hcode : Free [.check, .moveBegin .up none true, .check, .send .resume, .resumeDone] :=
        rfl
      exact free_append hcode hrest
  case failInflight =>
    cases h
    refine goto_kept hx hheld rfl ?_
    split_ifs <;> rfl

/-! ## What other threads do to a model -/

theorem shaped_congr (hx : x.Shaped) (hcode : y.code = x.code)
    (hentry : x.entry.isSome → y.entry.isSome) (hslot : y.slot = none ∨ y.slot = x.slot) :
    y.Shaped := by
  refine ⟨hcode ▸ hx.1, ?_⟩
  intro i hi
  have h := hx.2 i (hcode ▸ hi)
  have hnone : x.slot = none → y.slot = none := by
    intro hnone
    rcases hslot with hslot | hslot
    · exact hslot
    · exact hslot.trans hnone
  cases i
  case commit => exact ⟨hentry h.1, hnone h.2⟩
  case tierB => exact ⟨hentry h.1, hnone h.2⟩
  case record => exact hentry h
  case coldStart => exact hentry h
  case registerRelease => exact hentry h
  all_goals trivial

theorem kept_idle (hx : Sound sh x) (hcode : y.code = x.code)
    (hentry : x.entry.isSome → y.entry.isSome) (hslot : y.slot = x.slot) : Kept sh x sh y := by
  refine ⟨hx.valid, hx.inited, rfl, shaped_congr hx.shaped hcode hentry (.inr hslot), ?_⟩
  have howned : y.owned = x.owned := by
    rw [Model.owned, Model.owned, ModelPipeline.held, ModelPipeline.held, hslot, hcode]
  rw [howned]
  exact .same

/-- Another thread gives the slot of the entry back. -/
theorem giveBack_kept (hx : Sound sh x) (hentry : x.entry = some e) (now : Nat) :
    ∃ sh' e', giveBack sh e now = some (sh', e') ∧ ∀ y : Model, y.code = x.code →
      y.entry.isSome → y.slot = e'.slot → Kept sh x sh' y := by
  have hs : x.slot = e.slot := by rw [Registered.slot, hentry, bind_some]
  unfold giveBack
  cases hslot : e.slot with
  | none =>
    refine ⟨sh, e, rfl, fun y hcode hsome hy => ?_⟩
    exact kept_idle hx hcode (fun _ => hsome) (hy.trans hs.symm)
  | some slot =>
    have hslot' := hs.trans hslot
    have hlive : slot ∈ sh.slots.live := hx.owned slot (by simp [Model.owned, hslot'])
    refine ⟨sh.deallocate slot now, { e with slot := none }, if_pos hlive, fun y hcode hsome hy => ?_⟩
    refine given_kept hx hslot' now hy ?_ (shaped_congr hx.shaped hcode (fun _ => hsome) (.inl hy))
    rw [ModelPipeline.held, ModelPipeline.held, hcode]

theorem listen_kept (hx : Sound sh x) (now : Nat) :
    Kept sh x (listen sh x.toRegistered now).1
      ⟨(listen sh x.toRegistered now).2, x.toModelPipeline⟩ := by
  unfold listen
  cases hentry : x.entry with
  | none => exact kept_idle hx rfl (by simp [hentry]) (by simp [Registered.slot, hentry])
  | some e =>
    have hidle : ∀ y : Model, y.code = x.code → y.entry = x.entry → Kept sh x sh y := by
      intro y hcode hy
      refine kept_idle hx hcode (fun h => by rwa [hy]) ?_
      rw [Registered.slot, hy, Registered.slot]
    dsimp only
    split_ifs
    · obtain ⟨sh', e', hgive, hkept⟩ := giveBack_kept hx hentry now
      rw [hgive]
      refine hkept _ rfl rfl ?_
      exact stop_slot e'
    · exact hidle _ rfl hentry.symm
    · exact hidle _ rfl hentry.symm

/-! ## Pipelines -/

/-- What `_pipelines` says about the workers: those whose pipeline is not in it have ended, and a
worker that has ended executes nothing. -/
structure Living (s : State) : Prop where
  made : ∀ m g, s.pipelines m = some g → g < s.made m
  gone : ∀ p : Pid, s.pipelines p.1 ≠ some p.2 → s.ended p = true
  idle : ∀ p, s.ended p = true → (s.pipes p).code = []

/-- A model with its present pipeline -/
def State.current (s : State) (m : Nat) : Model :=
  ⟨s.models m, ((s.pipelines m).map fun g => s.pipes (m, g)).getD .empty⟩

variable {s' : State}

theorem Living.pipeline (h : Living s) (hp : s.ended p = false) : s.pipelines p.1 = some p.2 := by
  by_contra hne
  rw [h.gone p hne] at hp
  cases hp

theorem Living.busy (h : Living s) (hp : (s.pipes p).code ≠ []) : s.ended p = false := by
  by_contra hended
  exact hp (h.idle p (by simpa using hended))

theorem current_eq (hp : s.pipelines p.1 = some p.2) : s.current p.1 = s.view p := by
  rw [State.current, hp]
  rfl

theorem flatMap_range_single {f : Nat → List Slot} {n g : Nat} (hg : g < n)
    (h : ∀ k, k ≠ g → f k = []) : (range n).flatMap f = f g := by
  induction n with
  | zero => exact absurd hg (Nat.not_lt_zero g)
  | succ n ih =>
    rw [range_succ, flatMap_append, flatMap_singleton]
    by_cases hgn : g = n
    · subst hgn
      rw [flatMap_eq_nil_iff.mpr fun k hk => h k (ne_of_lt (mem_range.mp hk)), nil_append]
    · rw [ih (by omega), h n (Ne.symm hgn), append_nil]

/-- A worker without a pipeline in `_pipelines` has no slot. -/
theorem Living.owned_eq (h : Living s) (m : Nat) : s.owned m = (s.current m).owned := by
  have hheld : ∀ g, s.pipelines m ≠ some g → (s.pipes (m, g)).held = [] := by
    intro g hg
    rw [ModelPipeline.held, h.idle _ (h.gone (m, g) hg)]
    rfl
  unfold State.owned State.current Model.owned
  congr 1
  cases hpipe : s.pipelines m with
  | none =>
    refine flatMap_eq_nil_iff.mpr fun g _ => hheld g ?_
    simp [hpipe]
  | some g =>
    refine flatMap_range_single (h.made m g hpipe) fun k hk => hheld k ?_
    rw [hpipe]
    exact fun heq => hk (some.inj heq).symm

/-- A pipeline gets other operations. -/
theorem Living.setPipe (h : Living s) {x : ModelPipeline} (hx : s.ended p = true → x.code = []) :
    Living (s.setPipe p x) := by
  refine ⟨h.made, h.gone, fun q hq => ?_⟩
  by_cases hqp : q = p
  · subst hqp
    simpa [State.setPipe] using hx hq
  · simpa [State.setPipe, hqp] using h.idle q hq

theorem current_setPipe_ne {n : Nat} (hn : n ≠ p.1) (x : ModelPipeline) :
    (s.setPipe p x).current n = s.current n := by
  have hne : ∀ g, (n, g) ≠ p := fun g h => hn (congrArg Prod.fst h)
  simp [State.current, State.setPipe, hne]

/-! ## Whole runs -/

/-- The invariant -/
structure Owned (s : State) : Prop where
  living : Living s
  valid : Valid s.shared.slots
  inited : s.shared.slots.inited = true
  freedOnce : s.shared.freedTwice = false
  shaped : ∀ m, (s.current m).Shaped
  owners : Owners s.shared.slots.live fun m => (s.current m).owned

theorem Owned.sound (hs : Owned s) (m : Nat) : Sound s.shared (s.current m) :=
  ⟨hs.valid, hs.inited, hs.shaped m, hs.owners.within m⟩

theorem Owned.slotsOwned (hs : Owned s) : SlotsOwned s := by
  have howned := hs.living.owned_eq
  have hslot : ∀ m slot, (s.models m).slot = some slot → slot ∈ (s.current m).owned := by
    intro m slot hslot
    exact mem_append_left _ (mem_toList.mpr hslot)
  refine ⟨fun slot hlive => ?_, fun m => ?_, fun m slot h => ?_, hs.freedOnce, fun hquiet slot => ?_⟩
  · simpa only [howned] using hs.owners.existsUnique hlive
  · rw [howned]
    exact hs.owners.nodup m
  · exact hs.owners.within m slot (hslot m slot h)
  · constructor
    · intro hlive
      obtain ⟨m, hm⟩ := hs.owners.owner slot hlive
      rw [← howned, State.owned, mem_append] at hm
      rcases hm with hm | hm
      · exact ⟨m, mem_toList.mp hm⟩
      · obtain ⟨g, -, hg⟩ := mem_flatMap.mp hm
        rw [ModelPipeline.held, hquiet] at hg
        cases hg
    · rintro ⟨m, hm⟩
      exact hs.owners.within m slot (hslot m slot hm)

/-- One model changes. -/
theorem Owned.change (hs : Owned s) (hliving : Living s') (m : Nat)
    (hkept : Kept s.shared (s.current m) s'.shared (s'.current m))
    (hother : ∀ n, n ≠ m → s'.current n = s.current n) : Owned s' := by
  refine ⟨hliving, hkept.valid, hkept.inited, hkept.freedOnce.trans hs.freedOnce, fun n => ?_, ?_⟩
  · by_cases hn : n = m
    · exact hn ▸ hkept.shaped
    · exact hother n hn ▸ hs.shaped n
  · exact hs.owners.moved hs.valid.live_nodup hkept.valid.live_nodup hkept.moved
      fun n hn => congrArg Model.owned (hother n hn)

theorem Owned.setModel (hs : Owned s) {y : Registered}
    (hkept : Kept s.shared (s.current m) sh ⟨y, (s.current m).toModelPipeline⟩) :
    Owned { s.setModel m y with shared := sh } := by
  refine hs.change ⟨hs.living.made, hs.living.gone, hs.living.idle⟩ m ?_ fun n hn => ?_
  · simpa [State.setModel, State.current] using hkept
  · simp [State.setModel, State.current, hn]

/-- A worker that has not ended does something. -/
theorem Owned.work (hs : Owned s) (hp : s.ended p = false) {y : Model}
    (hkept : Kept s.shared (s.view p) sh y) :
    Owned { (s.setModel p.1 y.toRegistered).setPipe p y.toModelPipeline with shared := sh } := by
  have hpipe := hs.living.pipeline hp
  have hliving := hs.living.setPipe (x := y.toModelPipeline) (p := p) (by simp [hp])
  refine hs.change ⟨hliving.made, hliving.gone, hliving.idle⟩ p.1 ?_ fun n hn => ?_
  · rw [current_eq hpipe]
    simpa [State.setModel, State.setPipe, State.current, hpipe] using hkept
  · have hne : ∀ g, (n, g) ≠ p := fun g h => hn (congrArg Prod.fst h)
    simp [State.setModel, State.setPipe, State.current, hn, hne]

theorem setModel_self (s : State) (m : Nat) : s.setModel m (s.models m) = s := by
  rw [State.setModel, update_eq_self]

theorem Owned.setPipe (hs : Owned s) (hp : s.ended p = false) {z : ModelPipeline}
    (hkept : Kept s.shared (s.view p) s.shared ⟨s.models p.1, z⟩) : Owned (s.setPipe p z) := by
  have h := hs.work hp hkept
  rwa [setModel_self] at h

/-- The queues of a pipeline change. -/
theorem Owned.queues (hs : Owned s) {q : Pid} {z : ModelPipeline}
    (hcode : z.code = (s.pipes q).code) : Owned (s.setPipe q z) := by
  have hliving := hs.living.setPipe (x := z) fun hended => hcode.trans (hs.living.idle q hended)
  refine hs.change hliving q.1 (kept_idle (hs.sound q.1) ?_ id rfl) fun n hn => current_setPipe_ne hn z
  cases hpipe : s.pipelines q.1 with
  | none => simp [State.current, State.setPipe, hpipe]
  | some g =>
    by_cases hg : (q.1, g) = q
    · simp [State.current, State.setPipe, hpipe, hg, hcode]
    · simp [State.current, State.setPipe, hpipe, hg]

theorem Owned.put (hs : Owned s) (q : Pid) (op : Op) : Owned (s.put q op) := hs.queues rfl

theorem Owned.apply (hs : Owned s) (hp : s.ended p = false)
    (hkept : Kept s.shared (s.view p) r.shared r.model) : Owned (s.apply p r) := by
  have hwork := hs.work hp hkept
  unfold State.apply
  cases hput : r.put with
  | none => exact hwork
  | some put => exact hwork.put _ _

theorem Owned.makePipeline (hs : Owned s) (m : Nat) : Owned (s.makePipeline m).1 := by
  unfold State.makePipeline
  cases hpipe : s.pipelines m with
  | some g => exact hs
  | none =>
    have hcode : (s.current m).code = [] := by rw [State.current, hpipe]; rfl
    refine hs.change ⟨fun n g hg => ?_, fun q hq => ?_, fun q hq => ?_⟩ m ?_ fun n hn => ?_
    · by_cases hn : n = m
      · subst hn
        simp at hg ⊢
        omega
      · simp only [update_of_ne hn] at hg ⊢
        exact hs.living.made n g hg
    · have hne : q ≠ (m, s.made m) := by
        rintro rfl
        simp at hq
      simp only [update_of_ne hne]
      apply hs.living.gone
      by_cases hn : q.1 = m
      · rw [hn, hpipe]
        simp
      · simpa only [update_of_ne hn] using hq
    · have hne : q ≠ (m, s.made m) := by
        rintro rfl
        simp at hq
      simp only [update_of_ne hne] at hq
      simpa [State.setPipe, hne] using hs.living.idle q hq
    · refine kept_idle (hs.sound m) ?_ id rfl
      rw [hcode]
      simp [State.current, State.setPipe, ModelPipeline.empty]
    · have hne : ∀ g, (n, g) ≠ (m, s.made m) := fun g h => hn (congrArg Prod.fst h)
      simp [State.current, State.setPipe, hn, hne]

theorem next_code {z z' : ModelPipeline} {op : Op} (h : z.next = some (op, z')) :
    z'.code = z.code := by
  unfold ModelPipeline.next at h
  split at h <;> cases h <;> rfl

theorem Owned.start (hs : Owned s) (hcode : (s.pipes p).code = []) (hp : s.ended p = false) {op : Op}
    {z : ModelPipeline} (hnext : (s.pipes p).next = some (op, z)) : Owned (s.start p op z) := by
  have hz : z.code = [] := (next_code hnext).trans hcode
  have hpipe := hs.living.pipeline hp
  have hview := current_eq hpipe
  unfold State.start
  split_ifs
  · have hqueues : Owned (s.setPipe p z) := hs.queues (hz.trans hcode.symm)
    refine ⟨⟨hqueues.living.made, fun q hq => ?_, fun q hq => ?_⟩, hqueues.valid, hqueues.inited,
      hqueues.freedOnce, hqueues.shaped, hqueues.owners⟩
    · by_cases hqp : q = p
      · simp [hqp]
      · simpa [hqp] using hs.living.gone q hq
    · by_cases hqp : q = p
      · simpa [State.setPipe, hqp] using hz
      · simpa [State.setPipe, hqp] using hs.living.idle q (by simpa [hqp] using hq)
  · apply hs.setPipe hp
    have hheld : (s.view p).held = [] := by rw [ModelPipeline.held, State.view, hcode]; rfl
    refine kept_same (hview ▸ hs.sound p.1) hheld rfl rfl rfl (free_append ?_ rfl)
    cases op <;> rfl

theorem Owned.acknowledge (hs : Owned s) {ok : Bool} (hp : s.ended p = false)
    (hcode : (s.pipes p).code = i :: rest) (hi : i.held = none)
    (h : s.acknowledge p m ok rest = some s') : Owned s' := by
  unfold State.acknowledge at h
  split_ifs at h
  cases h
  have hset : Owned (s.setModel m { s.models m with commands := (s.models m).commands - 1 }) :=
    hs.setModel (kept_idle (hs.sound m) rfl id rfl)
  have hx := hset.sound p.1
  rw [current_eq (hset.living.pipeline hp)] at hx
  refine hset.setPipe hp (kept_same hx ?_ rfl rfl rfl (free_cons (i := .acked ok) rfl (hx.free_rest hcode)))
  rw [hx.held hcode, hi]
  rfl

theorem work_kept (hx : Sound s.shared (s.view p)) {c : Choice}
    (hcode : (s.pipes p).code = i :: rest) (hguard : instrGuarded (s.view p) c i = true)
    (h : (match (s.models p.1).entry with
      | none => execMissing p.1 s.shared (s.view p) rest i
      | some e => exec s p s.shared (s.view p) e c rest i) = some r) :
    Kept s.shared (s.view p) r.shared r.model := by
  cases hentry : (s.models p.1).entry with
  | none =>
    rw [hentry] at h
    have hi : i.held = none := by
      have hshaped := hx.shaped.2 i (by rw [State.view, hcode]; rfl)
      cases i
      case registerEntry => simp [instrGuarded, State.view, hentry] at hguard
      all_goals first | rfl | simp [State.view, hentry] at hshaped
    exact execMissing_kept hx hcode hi h
  | some e =>
    rw [hentry] at h
    cases hi : i.held with
    | none => exact exec_kept_free hx hcode hentry hi hguard h
    | some slot => exact exec_kept_held hx hcode hentry hi hguard h

/-- A worker steps an incumbent down, or finds that it cannot. -/
theorem Owned.visit (hs : Owned s) {c : Choice} (hcode : (s.pipes p).code = i :: rest)
    (h : s.visit p c rest i = some s') : Owned s' := by
  have hp := hs.living.busy (p := p) (by simp [hcode])
  have hx := hs.sound p.1
  rw [current_eq (hs.living.pipeline hp)] at hx
  have hrest := hx.free_rest hcode
  have hfound : i.held = none → (s.view p).held = [] := fun hi => by rw [hx.held hcode, hi]; rfl
  have hmodels : ∀ code, (s.apply p (goto s.shared (s.view p) code)).models = s.models := fun code =>
    update_eq_self p.1 s.models
  cases i
  case visitSend peer =>
    have hheld := hfound rfl
    simp only [State.visit] at h
    split_ifs at h <;> cases h
    · have hfree : Free (.visitAwait peer :: .visitRelease peer (s.models peer).epoch :: rest) :=
        free_cons rfl (free_cons rfl hrest)
      have happly := hs.apply hp (goto_kept hx hheld rfl hfree)
      refine happly.setModel (kept_idle (happly.sound peer) rfl ?_ ?_)
      · simp only [State.current, hmodels]
        exact id
      · simp only [State.current, hmodels]
        rfl
    · exact hs.apply hp (raise_kept hx hheld rfl .other)
  case visitRelease peer epoch =>
    have hheld := hfound rfl
    have happly := hs.apply hp (goto_kept hx hheld rfl hrest)
    have hpeer := happly.sound peer
    simp only [State.visit] at h
    cases hentry : (s.models peer).entry with
    | none =>
      rw [hentry] at h
      cases h
      exact hs.apply hp (raise_kept hx hheld rfl .other)
    | some e =>
      rw [hentry] at h
      have hentry' : ((s.apply p (goto s.shared (s.view p) rest)).current peer).entry = some e := by
        rw [State.current, hmodels]
        exact hentry
      dsimp only at h
      split_ifs at h
      · obtain ⟨sh', e', hgive, hkept⟩ := giveBack_kept hpeer hentry' c.now
        have hgive' : giveBack s.shared e c.now = some (sh', e') := hgive
        rw [hgive'] at h
        cases h
        exact happly.setModel (hkept _ rfl rfl rfl)
      · cases h
        refine happly.setModel (kept_idle hpeer rfl (fun _ => rfl) ?_)
        rw [Registered.slot, Registered.slot, hentry']
        rfl
  all_goals cases h

theorem Owned.withSlots (hs : Owned s) {slots : SlotsState Nat} (hvalid : Valid slots)
    (hinited : slots.inited = true) (hlive : slots.live = s.shared.slots.live) :
    Owned { s with shared := { s.shared with slots := slots } } :=
  ⟨⟨hs.living.made, hs.living.gone, hs.living.idle⟩, hvalid, hinited, hs.freedOnce, hs.shaped,
    hlive ▸ hs.owners⟩

/-- What does not matter for slots. -/
theorem Owned.withTeardowns (hs : Owned s) (tickets : Nat) (teardowns : List Teardown) :
    Owned { s with shared := { s.shared with tickets := tickets }, teardowns := teardowns } :=
  ⟨⟨hs.living.made, hs.living.gone, hs.living.idle⟩, hs.valid, hs.inited, hs.freedOnce, hs.shaped,
    hs.owners⟩

/-- A pipeline whose worker has ended is taken out of `_pipelines`. -/
theorem Owned.drop (hs : Owned s) (hended : ∀ g ∈ s.pipelines m, s.ended (m, g) = true)
    (teardowns : List Teardown) :
    Owned { s with pipelines := Function.update s.pipelines m none, teardowns := teardowns } := by
  refine hs.change ⟨fun n g hg => ?_, fun q hq => ?_, hs.living.idle⟩ m ?_ fun n hn => ?_
  · by_cases hn : n = m
    · simp [hn] at hg
    · exact hs.living.made n g (by simpa [hn] using hg)
  · by_cases hpipe : s.pipelines q.1 = some q.2
    · by_cases hn : q.1 = m
      · subst hn
        exact hended q.2 hpipe
      · simp [hn, hpipe] at hq
    · exact hs.living.gone q hpipe
  · refine kept_idle (hs.sound m) ?_ id rfl
    cases hpipe : s.pipelines m with
    | none => simp [State.current, hpipe]
    | some g =>
      have hcode := hs.living.idle (m, g) (hended g hpipe)
      simp [State.current, hpipe, hcode, ModelPipeline.empty]
  · simp [State.current, hn]

theorem owned_new (gpus : List Nat) (levels : Nat → Option Nat) : Owned (new gpus levels) := by
  have hempty : ∀ m, ((new gpus levels).current m).owned = [] := by
    intro m
    cases hm : levels m <;>
      simp [new, State.current, Model.owned, Registered.slot, ModelPipeline.held,
        ModelPipeline.empty, hm, Entry.fresh]
  have hliving : Living (new gpus levels) := by
    refine ⟨fun m g hg => ?_, fun p hp => ?_, fun p _ => rfl⟩
    · cases hm : levels m <;> simp [new, hm] at hg ⊢
      omega
    · cases hm : levels p.1 <;> simp [new, hm] at hp ⊢
      omega
  refine ⟨hliving, init_valid gpus, rfl, rfl, fun m => shaped_of_free ?_, ?_⟩
  · cases hm : levels m <;> simp [new, State.current, ModelPipeline.empty, hm, Free]
  refine ⟨?_, ?_, ?_, ?_⟩
  · intro m
    rw [hempty]
    exact nodup_nil
  · intro m slot hslot
    rw [hempty] at hslot
    cases hslot
  · intro slot hslot
    cases hslot
  · intro m n slot hslot
    rw [hempty] at hslot
    cases hslot

theorem owned_step {a : Act} (hs : Owned s) (hguard : Guarded s a) (hstep : step s a = some s') :
    Owned s' := by
  have hsubmit : ∀ m op make accepted, s.submit m op make accepted = some s' → Owned s' := by
    intro m op make accepted h
    unfold State.submit at h
    split_ifs at h
    cases h
    exact (hs.makePipeline m).put _ _
  cases a with
  | register m level =>
    simp only [step] at hstep
    split at hstep
    · cases hstep
    · next hentry =>
      have hslot : (s.models m).slot = none := by rw [Registered.slot, hentry]; rfl
      cases hstep
      have hset : Owned (s.setModel m { s.models m with entry := some (.fresh level) }) :=
        hs.setModel (kept_idle (hs.sound m) rfl (fun _ => rfl) hslot.symm)
      exact (hset.makePipeline m).put _ _
  | move m target gpu =>
    simp only [step] at hstep
    split_ifs at hstep
    exact hsubmit _ _ _ _ hstep
  | generate m => exact hsubmit _ _ _ _ hstep
  | resume m => exact hsubmit _ _ _ _ hstep
  | pause m =>
    simp only [step] at hstep
    split at hstep
    · split_ifs at hstep
      cases hstep
      exact hs.queues rfl
    · cases hstep
  | remove m =>
    simp only [step] at hstep
    split at hstep
    · split_ifs at hstep
      cases hstep
      exact (hs.put _ _).withTeardowns _ _
    · cases hstep
  | start p =>
    simp only [step] at hstep
    split_ifs at hstep with hidle
    obtain ⟨r, hr, hstart⟩ := map_eq_some_iff.mp hstep
    cases hstart
    exact hs.start hidle.1 hidle.2 hr
  | work p c =>
    simp only [step] at hstep
    split at hstep
    · cases hstep
    · next i rest hcode =>
      obtain ⟨r, hr, happly⟩ := map_eq_some_iff.mp hstep
      cases happly
      have hi : instrGuarded (s.view p) c i = true := by
        simp only [Guarded, hcode] at hguard
        exact hguard
      have hp := hs.living.busy (p := p) (by simp [hcode])
      have hx := hs.sound p.1
      rw [current_eq (hs.living.pipeline hp)] at hx
      exact hs.apply hp (work_kept hx hcode hi hr)
  | visit p c =>
    simp only [step] at hstep
    split at hstep
    · cases hstep
    · next hcode => exact hs.visit hcode hstep
  | ack p ok =>
    simp only [step] at hstep
    split at hstep
    · next hcode => exact hs.acknowledge (hs.living.busy (by simp [hcode])) hcode rfl hstep
    · next hcode => exact hs.acknowledge (hs.living.busy (by simp [hcode])) hcode rfl hstep
    · cases hstep
  | answer m =>
    simp only [step] at hstep
    split_ifs at hstep
    cases hstep
    exact hs.setModel (kept_idle (hs.sound m) rfl id rfl)
  | listen m now =>
    simp only [step] at hstep
    split_ifs at hstep
    cases hstep
    exact hs.setModel (listen_kept (hs.sound m) now)
  | shutdown k =>
    simp only [step] at hstep
    split at hstep
    · split_ifs at hstep
      cases hstep
      exact (hs.put _ _).withTeardowns _ _
    · cases hstep
  | drop k =>
    simp only [step] at hstep
    split at hstep
    · next ht =>
      cases hstep
      exact hs.drop (hguard _ ht) _
    · cases hstep
  | addGpu gpu =>
    cases hstep
    refine hs.withSlots (add_valid hs.valid gpu) (step_inited hs.inited (.add gpu)) ?_
    unfold add
    split_ifs <;> rfl
  | drainGpu gpu =>
    cases hstep
    refine hs.withSlots (markDraining_valid hs.valid gpu) (step_inited hs.inited (.markDraining gpu)) ?_
    unfold markDraining
    split_ifs <;> rfl
  | popGpu gpu =>
    simp only [step] at hstep
    split_ifs at hstep
    cases hstep
    refine hs.withSlots (pop_valid hs.valid gpu) (step_inited hs.inited (.pop gpu)) ?_
    unfold pop
    split_ifs
    all_goals
      dsimp only
      try split_ifs
      all_goals rfl

/-- What a step of a worker finds when all goes well -/
def fine : Choice := ⟨true, 0, []⟩

/-- A step of one model -/
def Act.within (m : Nat) : Act → Bool
  | .register n _ => n = m
  | .start p | .work p _ => p.1 = m
  | _ => false

/-- Other models have no part in such steps. -/
theorem step_within {a : Act} {n : Nat} (hn : n ≠ m) (ha : a.within m = true)
    (h : step s a = some s') : s'.made n = s.made n ∧ s'.models n = s.models n := by
  cases a
  case register k level =>
    obtain rfl : k = m := of_decide_eq_true ha
    simp only [step] at h
    split at h <;> cases h
    unfold State.makePipeline State.put
    split <;> simp [State.setPipe, State.setModel, hn]
  case start p =>
    simp only [step] at h
    split_ifs at h
    obtain ⟨r, -, rfl⟩ := map_eq_some_iff.mp h
    unfold State.start
    split_ifs <;> exact ⟨rfl, rfl⟩
  case work p c =>
    obtain rfl : p.1 = m := of_decide_eq_true ha
    simp only [step] at h
    split at h
    · cases h
    · obtain ⟨r, -, rfl⟩ := map_eq_some_iff.mp h
      unfold State.apply
      cases r.put <;> simp [State.put, State.setPipe, State.setModel, hn]
  all_goals cases ha

end Orchestrator
end ArcticPlatform.SemiPersistence
