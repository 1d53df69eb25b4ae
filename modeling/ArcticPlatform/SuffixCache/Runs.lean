import ArcticPlatform.SuffixCache.Model
import ArcticPlatform.SuffixTree.Store
import Mathlib.Data.Fintype.Card

/-!
# Suffix decoding cache: what is cached

A ledger follows the calls alone: which requests are active, what was added to each
one since it was last started, and when that was.  The cache agrees with the ledger
after any calls: its two dictionaries are inverse to each other, the global tree
holds the responses of the cached requests, and the oldest ones go first.

Main results:

- Theorem `findSeqId_isSome`: there is a free sequence id.
- Theorem `evictLoop_eq`: the eviction loop ends, and keeps the newest requests.
- Theorem `run_coherent`: the cache agrees with the ledger.
- Theorem `run_caches_responses`: the same, spelled out.
-/

namespace ArcticPlatform.SuffixCache

open Dicts List Function
open SuffixTree (Key Layout)

/-! ## The ledger -/

/-- What the calls say: the active requests, the responses since the last start of each request
and the time of that start. -/
structure Ledger (κ : Type) where
  active : List κ
  responses : κ → List Key
  startedAt : κ → Nat
  clock : Nat

namespace Ledger

variable {κ : Type} [DecidableEq κ]

/-- No request was started. -/
def init : Ledger κ := ⟨[], fun _ => [], fun _ => 0, 0⟩

/-- A call that raises an exception changes nothing but the time. -/
def tick (l : Ledger κ) : Ledger κ := { l with clock := l.clock + 1 }

/-- One call. -/
def step (l : Ledger κ) : Call κ → Ledger κ
  | .startRequest reqId promptTokenIds _ =>
    match (promptTokenIds.validate : Except (Error κ) (List Key)) with
    | .error _ => l.tick
    | .ok _ =>
      if reqId ∈ l.active then l.tick
      else
        { active := l.active ++ [reqId]
          responses := Function.update l.responses reqId []
          startedAt := Function.update l.startedAt reqId l.clock
          clock := l.clock + 1 }
  | .stopRequest reqId => { l.tick with active := l.active.erase reqId }
  | .addActiveResponse reqId tokenIds =>
    match (tokenIds.validate : Except (Error κ) (List Key)) with
    | .error _ => l.tick
    | .ok tokens =>
      if reqId ∈ l.active then
        { l.tick with
          responses := Function.update l.responses reqId (l.responses reqId ++ tokens) }
      else l.tick
  | .evictCachedResponse _ _ => l.tick

/-- The ledger of calls. -/
def ofCalls (calls : List (Call κ)) : Ledger κ := calls.foldl step init

end Ledger

/-! ## Sequence ids -/

theorem SeqId.next_eq (s : SeqId) : s.next = s + 1 := by
  apply Fin.ext
  rw [SeqId.next, Fin.val_add]
  exact Nat.and_two_pow_sub_one_eq_mod (s.val + 1) 31

theorem SeqId.key_injective : Injective SeqId.key := by
  intro a b h
  apply Fin.ext
  have := congrArg Subtype.val h
  simpa [SeqId.key] using this

namespace SuffixDecodingCache

variable {κ : Type} [DecidableEq κ]

variable {c : SuffixDecodingCache κ} {fuel : Nat}

theorem isFree_of_findSeqId {start s next : SeqId} (h : c.findSeqId fuel start = some (s, next)) :
    c.isFree s := by
  induction fuel generalizing start with
  | zero => cases h
  | succ fuel ih =>
    rw [findSeqId] at h
    split_ifs at h with hfree
    · cases h
      exact hfree
    · exact ih h

theorem not_isFree_of_findSeqId {start : SeqId} (h : c.findSeqId fuel start = none) :
    ∀ k < fuel, ¬ c.isFree (start + Fin.ofNat _ k) := by
  induction fuel generalizing start with
  | zero => exact fun k hk => absurd hk (Nat.not_lt_zero k)
  | succ fuel ih =>
    rw [findSeqId] at h
    split_ifs at h with hfree
    intro k hk
    cases k with
    | zero => simpa using hfree
    | succ k =>
      have hstep : start + Fin.ofNat _ (k + 1) = start.next + Fin.ofNat _ k := by
        rw [SeqId.next_eq, add_assoc]
        congr 1
        apply Fin.ext
        simp [Fin.val_add, add_comm]
      rw [hstep]
      exact ih h k (Nat.lt_of_succ_lt_succ hk)

/-! ## Dictionaries and the global tree -/

/-- The dictionaries are inverse to each other. -/
def Paired (c : SuffixDecodingCache κ) : Prop := ∀ reqId seqId,
  c.reqToSeqId.get? reqId = some seqId ↔ c.seqToReqId.get? seqId = some reqId

section Paired

variable {c : SuffixDecodingCache κ} {reqId : κ} {seqId : SeqId}

theorem Paired.seqId_inj (h : Paired c) {reqId' : κ}
    (hget : c.reqToSeqId.get? reqId = some seqId) (hget' : c.reqToSeqId.get? reqId' = some seqId) :
    reqId = reqId' := by
  have hinv := (h reqId seqId).mp hget
  rw [(h reqId' seqId).mp hget'] at hinv
  exact (Option.some.inj hinv).symm

/-- Take a request and its sequence out of the cache. -/
def drop (layouts : SeqId → Layout) (c : SuffixDecodingCache κ) (reqId : κ) (seqId : SeqId) :
    SuffixDecodingCache κ :=
  { c with
    reqToSeqId := c.reqToSeqId.erase reqId
    seqToReqId := c.seqToReqId.erase seqId
    globalTree := SuffixTree.remove (layouts seqId) c.globalTree seqId.key }

theorem evictCachedResponse_eq (h : Paired c) (layouts : SeqId → Layout)
    (hget : c.reqToSeqId.get? reqId = some seqId) :
    c.evictCachedResponse layouts reqId = (.ok (), c.drop layouts reqId seqId) := by
  have hinv := (h reqId seqId).mp hget
  simp only [evictCachedResponse, hget, hinv, drop]

theorem reclaim_eq (h : Paired c) (layouts : SeqId → Layout)
    (hget : c.seqToReqId.get? seqId = some reqId) :
    c.reclaim layouts seqId = (.ok (), c.drop layouts reqId seqId) := by
  have hinv := (h reqId seqId).mpr hget
  simp only [reclaim, hget, hinv, drop]

theorem Paired.drop (h : Paired c) (layouts : SeqId → Layout)
    (hget : c.reqToSeqId.get? reqId = some seqId) : Paired (c.drop layouts reqId seqId) := by
  intro x s
  simp only [SuffixDecodingCache.drop, Dict.get?_erase]
  have hinv := h x s
  by_cases hx : x = reqId
  · subst hx
    by_cases hs : s = seqId
    · simp [hs]
    · rw [if_pos rfl, if_neg hs, ← hinv, hget]
      simp [Ne.symm hs]
  · by_cases hs : s = seqId
    · subst hs
      rw [if_neg hx, if_pos rfl, hinv, (h reqId s).mp hget]
      simp [Ne.symm hx]
    · rw [if_neg hx, if_neg hs, hinv]

/-- Put a request into the cache. -/
def enter (c : SuffixDecodingCache κ) (reqId : κ) (seqId : SeqId) : SuffixDecodingCache κ :=
  { c with
    reqToSeqId := c.reqToSeqId.set reqId seqId
    seqToReqId := c.seqToReqId.set seqId reqId }

theorem Paired.enter (h : Paired c) (hreq : c.reqToSeqId.get? reqId = none)
    (hseq : c.seqToReqId.get? seqId = none) : Paired (c.enter reqId seqId) := by
  intro x s
  simp only [SuffixDecodingCache.enter, Dict.get?_set]
  have hinv := h x s
  by_cases hx : x = reqId
  · subst hx
    by_cases hs : s = seqId
    · simp [hs]
    · rw [if_pos rfl, if_neg hs, ← hinv, hreq]
      simp [Ne.symm hs]
  · by_cases hs : s = seqId
    · subst hs
      rw [if_neg hx, if_pos rfl, hinv, hseq]
      simp [Ne.symm hx]
    · rw [if_neg hx, if_neg hs, hinv]

end Paired

/-- The dictionaries are inverse to each other, and the global tree holds the responses that are
not empty. -/
structure Linked (responses : κ → List Key) (c : SuffixDecodingCache κ) : Prop where
  inverse : ∀ reqId seqId,
    c.reqToSeqId.get? reqId = some seqId ↔ c.seqToReqId.get? seqId = some reqId
  cached : ∀ reqId seqId, c.reqToSeqId.get? reqId = some seqId →
    c.globalTree.seqs.lookup seqId.key = if responses reqId = [] then none else some (responses reqId)
  others : ∀ t, (∀ reqId seqId, c.reqToSeqId.get? reqId = some seqId → seqId.key ≠ t) →
    c.globalTree.seqs.lookup t = none

section Linked

variable {responses : κ → List Key} {c : SuffixDecodingCache κ} {reqId : κ} {seqId : SeqId}

section

variable (h : Linked responses c)
include h

theorem Linked.congr {responses' : κ → List Key}
    (heq : ∀ reqId ∈ c.cachedRequests, responses' reqId = responses reqId) :
    Linked responses' c where
  inverse := h.inverse
  cached := by
    intro reqId seqId hget
    rw [heq reqId ((c.reqToSeqId.mem_keys).mpr (by rw [hget]; rfl))]
    exact h.cached reqId seqId hget
  others := h.others

theorem Linked.mem_cachedRequests
    (hget : c.seqToReqId.get? seqId = some reqId) : reqId ∈ c.cachedRequests := by
  rw [cachedRequests, Dict.mem_keys, (h.inverse reqId seqId).mpr hget]
  rfl

theorem Linked.seqId_inj {reqId' : κ}
    (hget : c.reqToSeqId.get? reqId = some seqId) (hget' : c.reqToSeqId.get? reqId' = some seqId) :
    reqId = reqId' := Paired.seqId_inj h.inverse hget hget'

theorem drop_linked (layouts : SeqId → Layout) (hget : c.reqToSeqId.get? reqId = some seqId) :
    Linked responses (c.drop layouts reqId seqId) := by
  have hseqs : (c.drop layouts reqId seqId).globalTree.seqs = c.globalTree.seqs.erase seqId.key :=
    SuffixTree.remove_seqs _ _ _
  -- The id of another request is another id.
  have hother : ∀ x s, x ≠ reqId → c.reqToSeqId.get? x = some s → s ≠ seqId := by
    rintro x s hx hs rfl
    exact hx (h.seqId_inj hs hget)
  constructor
  case inverse => exact Paired.drop h.inverse layouts hget
  case cached =>
    intro x s hs
    simp only [drop, Dict.get?_erase] at hs
    split_ifs at hs with hx
    rw [hseqs, AList.lookup_erase_ne fun hkey => hother x s hx hs (SeqId.key_injective hkey)]
    exact h.cached x s hs
  case others =>
    intro t ht
    rw [hseqs]
    by_cases hkey : t = seqId.key
    · rw [hkey, AList.lookup_erase]
    · rw [AList.lookup_erase_ne hkey]
      apply h.others
      intro x s hs
      by_cases hx : x = reqId
      · subst hx
        rw [hget] at hs
        cases hs
        exact Ne.symm hkey
      · exact ht x s (by simpa [drop, Dict.get?_erase, hx] using hs)

end

theorem cachedRequests_drop (layouts : SeqId → Layout) :
    (c.drop layouts reqId seqId).cachedRequests = c.cachedRequests.erase reqId :=
  c.reqToSeqId.keys_erase reqId

theorem enter_linked (h : Linked responses c) (hreq : reqId ∉ c.cachedRequests)
    (hseq : c.seqToReqId.get? seqId = none) (hnew : responses reqId = []) :
    Linked responses (c.enter reqId seqId) := by
  have hnone : c.reqToSeqId.get? reqId = none := (c.reqToSeqId.get?_eq_none).mpr hreq
  have hunused : ∀ x, c.reqToSeqId.get? x ≠ some seqId := by
    intro x hx
    rw [(h.inverse x seqId).mp hx] at hseq
    cases hseq
  constructor
  case inverse => exact Paired.enter h.inverse hnone hseq
  case cached =>
    intro x s hs
    simp only [enter, Dict.get?_set] at hs
    split_ifs at hs with hx
    · cases hs
      rw [hx, hnew, if_pos rfl]
      apply h.others
      intro y s hs hkey
      rw [SeqId.key_injective hkey] at hs
      exact hunused y hs
    · exact h.cached x s hs
  case others =>
    intro t ht
    apply h.others
    intro x s hs
    have hx : x ≠ reqId := by
      rintro rfl
      rw [hnone] at hs
      cases hs
    exact ht x s (by simpa [enter, Dict.get?_set, hx] using hs)

theorem cachedRequests_enter (hreq : reqId ∉ c.cachedRequests) :
    (c.enter reqId seqId).cachedRequests = c.cachedRequests ++ [reqId] := by
  exact (c.reqToSeqId.keys_set reqId seqId).trans (if_neg hreq)

end Linked

/-! ## A free sequence id -/

/-- With fewer active requests than ids, besides one that is not cached, there is a free id. -/
theorem findSeqId_isSome {responses : κ → List Key} (h : Linked responses c) {active : List κ}
    (hactive : ∀ x ∈ c.cachedRequests, (c.localTrees.get? x).isSome → x ∈ active)
    (hcount : active.length < 0x80000000) (hfuel : 0x80000000 ≤ fuel) (start : SeqId) :
    ∃ s next, c.findSeqId fuel start = some (s, next) := by
  cases hfind : c.findSeqId fuel start with
  | some r => exact ⟨r.1, r.2, rfl⟩
  | none =>
    exfalso
    -- Every id belongs to an active request, so there are too many of these.
    have hall : ∀ t : SeqId, ¬ c.isFree t := by
      intro t
      have hk : (t - start).val < fuel := lt_of_lt_of_le (t - start).isLt hfuel
      have := not_isFree_of_findSeqId hfind (t - start).val hk
      rwa [Fin.ofNat_val_eq_self, add_sub_cancel] at this
    have howner : ∀ t : SeqId, ∃ x, c.seqToReqId.get? t = some x ∧ x ∈ active := by
      intro t
      have hbusy := hall t
      unfold isFree at hbusy
      cases hget : c.seqToReqId.get? t with
      | none => simp [hget] at hbusy
      | some x =>
        refine ⟨x, rfl, hactive x (h.mem_cachedRequests hget) ?_⟩
        rw [hget] at hbusy
        simpa [Option.isSome_iff_ne_none] using hbusy
    choose owner howner hmem using howner
    have hinj : Injective owner := by
      intro a b hab
      have ha := (h.inverse (owner a) a).mpr (howner a)
      rw [hab, (h.inverse (owner b) b).mpr (howner b)] at ha
      exact (Option.some.inj ha).symm
    have hcard : Fintype.card SeqId ≤ active.toFinset.card := by
      rw [← Finset.card_univ, ← Finset.card_image_of_injective Finset.univ hinj]
      apply Finset.card_le_card
      intro x hx
      obtain ⟨t, -, rfl⟩ := Finset.mem_image.mp hx
      exact mem_toFinset.mpr (hmem t)
    have hle := active.toFinset_card_le
    rw [Fintype.card_fin] at hcard
    omega

/-! ## Eviction -/

/-- What a start keeps of the requests that were cached, the oldest first. -/
def newest (limit : Int) (older : List κ) : List κ :=
  if limit < 0 then older else older.drop (older.length + 1 - limit.toNat)

/-- What eviction leaves alone. -/
structure SameRequests (c c' : SuffixDecodingCache κ) : Prop where
  localTrees : c'.localTrees = c.localTrees
  maxCachedRequests : c'.maxCachedRequests = c.maxCachedRequests

section Evict

variable {responses : κ → List Key} {c : SuffixDecodingCache κ} {reqId : κ} {seqId : SeqId}
  {older : List κ}

theorem find?_oldest (h : Linked responses c) {oldest : κ}
    (hkeys : c.cachedRequests = oldest :: older ++ [reqId])
    (hget : c.reqToSeqId.get? reqId = some seqId) :
    ∃ s, c.reqToSeqId.get? oldest = some s ∧
      (c.reqToSeqId.entries.find? fun e => e.2 ≠ seqId) = some (oldest, s) := by
  have hnodup : (oldest :: older ++ [reqId]).Nodup := by
    rw [← hkeys]
    exact c.reqToSeqId.keys_nodup
  have hne : oldest ≠ reqId := by
    rintro rfl
    simp at hnodup
  cases hentries : c.reqToSeqId.entries with
  | nil =>
    rw [cachedRequests, Dict.keys, hentries] at hkeys
    cases hkeys
  | cons e rest =>
    obtain ⟨x, s⟩ := e
    have hx : x = oldest := by
      rw [cachedRequests, Dict.keys, hentries] at hkeys
      exact (List.cons.inj hkeys).1
    subst hx
    have hs : c.reqToSeqId.get? x = some s := by
      rw [Dict.get?_eq_some, hentries]
      exact mem_cons_self
    refine ⟨s, hs, ?_⟩
    rw [find?_cons_of_pos]
    have : s ≠ seqId := by
      rintro rfl
      exact hne (h.seqId_inj hs hget)
    simpa using this

variable {fuel : Nat}

/-- The loop ends, and evicts from the oldest on. -/
theorem evictLoop_eq (layouts : SeqId → Layout) (h : Linked responses c)
    (hkeys : c.cachedRequests = older ++ [reqId]) (hget : c.reqToSeqId.get? reqId = some seqId)
    (hlimit : 1 ≤ c.maxCachedRequests)
    (hfuel : older.length + 1 - c.maxCachedRequests.toNat < fuel) :
    ∃ c', evictLoop layouts seqId fuel c = some (.ok (), c') ∧ Linked responses c' ∧
      c'.cachedRequests = newest c.maxCachedRequests older ++ [reqId] ∧
      c'.reqToSeqId.get? reqId = some seqId ∧ SameRequests c c' := by
  have hlength : c.reqToSeqId.entries.length = older.length + 1 := by
    have := congrArg List.length hkeys
    simpa [cachedRequests, Dict.keys] using this
  have hnewest : ∀ l : List κ, newest c.maxCachedRequests l =
      l.drop (l.length + 1 - c.maxCachedRequests.toNat) := fun l => if_neg (by omega)
  rw [hnewest]
  induction older generalizing c fuel with
  | nil =>
    cases fuel with
    | zero => omega
    | succ fuel =>
      refine ⟨c, ?_, h, by rw [hkeys, drop_nil], hget, rfl, rfl⟩
      rw [evictLoop, if_neg (by rw [hlength]; simpa using hlimit)]
  | cons oldest older ih =>
    cases fuel with
    | zero => omega
    | succ fuel =>
      rw [length_cons] at hlength hfuel ⊢
      by_cases hfull : (c.reqToSeqId.entries.length : Int) > c.maxCachedRequests
      · obtain ⟨s, hs, hfind⟩ := find?_oldest h hkeys hget
        have hne : reqId ≠ oldest := by
          rintro rfl
          have hnodup := c.reqToSeqId.keys_nodup
          rw [show c.reqToSeqId.keys = _ from hkeys] at hnodup
          simp at hnodup
        have hkeys' : (c.drop layouts oldest s).cachedRequests = older ++ [reqId] := by
          rw [cachedRequests_drop, hkeys, cons_append, erase_cons_head]
        have hget' : (c.drop layouts oldest s).reqToSeqId.get? reqId = some seqId := by
          rw [drop, Dict.get?_erase_ne _ hne]
          exact hget
        have hlength' : (c.drop layouts oldest s).reqToSeqId.entries.length = older.length + 1 := by
          have := congrArg List.length hkeys'
          simpa [cachedRequests, Dict.keys] using this
        have hfuel' : older.length + 1 - (c.drop layouts oldest s).maxCachedRequests.toNat <
            fuel := by
          simp only [drop]
          omega
        obtain ⟨c', hloop, hlinked, hcached, hnew, hsame⟩ := ih (drop_linked h layouts hs) hkeys'
          hget' hlimit hfuel' hlength' (fun l => if_neg (by simp only [drop]; omega))
        refine ⟨c', ?_, hlinked, ?_, hnew, hsame.localTrees, hsame.maxCachedRequests⟩
        · rw [evictLoop, if_pos hfull, hfind]
          simp only [evictCachedResponse_eq h.inverse layouts hs]
          exact hloop
        · rw [hcached]
          have hdrop : older.length + 1 + 1 - c.maxCachedRequests.toNat =
              (older.length + 1 - c.maxCachedRequests.toNat) + 1 := by omega
          rw [hdrop, drop_succ_cons]
          rfl
      · refine ⟨c, ?_, h, ?_, hget, rfl, rfl⟩
        · rw [evictLoop, if_neg hfull]
        · have hzero : older.length + 1 + 1 - c.maxCachedRequests.toNat = 0 := by omega
          rw [hkeys, hzero, drop_zero]

section

variable (h : Linked responses c)
include h

theorem filter_seqId_eq_erase {x : κ} (hget : c.reqToSeqId.get? x = some seqId) :
    (c.cachedRequests.filter fun y => c.reqToSeqId.get? y ≠ some seqId) =
      c.cachedRequests.erase x := by
  have hnodup : c.cachedRequests.Nodup := c.reqToSeqId.keys_nodup
  rw [hnodup.erase_eq_filter]
  apply filter_congr
  intro y _
  rw [Bool.eq_iff_iff]
  simp only [decide_eq_true_eq, bne_iff_ne, ne_eq, not_iff_not]
  constructor
  · exact fun hy => h.seqId_inj hy hget
  · rintro rfl
    exact hget

theorem reclaim_cases (layouts : SeqId → Layout) (seqId : SeqId) :
    ∃ c', c.reclaim layouts seqId = (.ok (), c') ∧ Linked responses c' ∧
      c'.seqToReqId.get? seqId = none ∧
      c'.cachedRequests = (c.cachedRequests.filter fun x => c.reqToSeqId.get? x ≠ some seqId) ∧
      SameRequests c c' := by
  cases hget : c.seqToReqId.get? seqId with
  | none =>
    refine ⟨c, ?_, h, hget, ?_, rfl, rfl⟩
    · simp only [reclaim, hget]
    · rw [eq_comm, filter_eq_self]
      intro x _
      rw [decide_eq_true_eq]
      intro hx
      rw [(h.inverse x seqId).mp hx] at hget
      cases hget
  | some x =>
    have hx := (h.inverse x seqId).mpr hget
    refine ⟨c.drop layouts x seqId, reclaim_eq h.inverse layouts hget, drop_linked h layouts hx, ?_, ?_,
      rfl, rfl⟩
    · simp [drop]
    · rw [cachedRequests_drop, filter_seqId_eq_erase h hx]

/-- What `_generate_seq_id` does for a request that is not cached. -/
theorem generateSeqId_eq (layouts : SeqId → Layout) (hfuel : 0x80000000 ≤ fuel) {active : List κ}
    (hactive : ∀ x ∈ c.cachedRequests, (c.localTrees.get? x).isSome → x ∈ active)
    (hcount : active.length < 0x80000000) (hreq : reqId ∉ c.cachedRequests)
    (hnew : responses reqId = []) (hlimit : c.maxCachedRequests ≠ 0)
    (hbound : 0 ≤ c.maxCachedRequests → (c.cachedRequests.length : Int) ≤ c.maxCachedRequests) :
    ∃ c' seqId, c.generateSeqId layouts fuel reqId = some (.ok (), c') ∧ Linked responses c' ∧
      c'.reqToSeqId.get? reqId = some seqId ∧
      (∀ x, c.reqToSeqId.get? x = some seqId → c.localTrees.get? x = none) ∧
      c'.cachedRequests = newest c.maxCachedRequests
        (c.cachedRequests.filter fun x => c.reqToSeqId.get? x ≠ some seqId) ++ [reqId] ∧
      SameRequests c c' := by
  obtain ⟨seqId, next, hfind⟩ := findSeqId_isSome h hactive hcount hfuel c.nextSeqId
  have hfree := isFree_of_findSeqId hfind
  have h₀ : Linked responses { c with nextSeqId := next } := ⟨h.inverse, h.cached, h.others⟩
  obtain ⟨c₁, hreclaim, h₁, hunused, hcached, hsame⟩ := reclaim_cases h₀ layouts seqId
  have hcached : c₁.cachedRequests =
      (c.cachedRequests.filter fun x => c.reqToSeqId.get? x ≠ some seqId) := hcached
  have hreq₁ : reqId ∉ c₁.cachedRequests := by
    rw [hcached]
    exact fun hmem => hreq (mem_of_mem_filter hmem)
  have h₂ := enter_linked h₁ hreq₁ hunused hnew
  have hkeys : (c₁.enter reqId seqId).cachedRequests =
      (c.cachedRequests.filter fun x => c.reqToSeqId.get? x ≠ some seqId) ++ [reqId] := by
    rw [cachedRequests_enter hreq₁, hcached]
  have hget : (c₁.enter reqId seqId).reqToSeqId.get? reqId = some seqId := by simp [enter]
  have hmax : (c₁.enter reqId seqId).maxCachedRequests = c.maxCachedRequests :=
    hsame.maxCachedRequests
  have howner : ∀ x, c.reqToSeqId.get? x = some seqId → c.localTrees.get? x = none := by
    intro x hx
    simpa [isFree, (h.inverse x seqId).mp hx] using hfree
  have hstart : c.generateSeqId layouts fuel reqId =
      maybeEvictRequests layouts fuel (c₁.enter reqId seqId) seqId := by
    simp only [generateSeqId, hfind, hreclaim]
    rfl
  rw [hstart, maybeEvictRequests, hmax]
  by_cases hneg : c.maxCachedRequests < 0
  · rw [if_pos hneg]
    refine ⟨_, seqId, rfl, h₂, hget, howner, ?_, hsame.localTrees, hsame.maxCachedRequests⟩
    rw [newest, if_pos hneg]
    exact hkeys
  · have hlength := length_filter_le (fun x => c.reqToSeqId.get? x ≠ some seqId)
      c.cachedRequests
    have hbound := hbound (by omega)
    have hevict : (c.cachedRequests.filter fun x => c.reqToSeqId.get? x ≠ some seqId).length + 1 -
        (c₁.enter reqId seqId).maxCachedRequests.toNat < fuel := by omega
    rw [if_neg hneg, if_neg hlimit]
    obtain ⟨c', hloop, hlinked, hnewest, hget', hsame'⟩ :=
      evictLoop_eq layouts h₂ hkeys hget (by omega) hevict
    rw [hmax] at hnewest
    exact ⟨c', seqId, hloop, hlinked, hget', howner, hnewest,
      hsame'.localTrees.trans hsame.localTrees,
      hsame'.maxCachedRequests.trans hsame.maxCachedRequests⟩

/-- What `start_request` does with a request that is now active, when the global cache is on. -/
theorem openSlot_eq (layouts : SeqId → Layout) (hfuel : 0x80000000 ≤ fuel) {active : List κ}
    (hactive : ∀ x ∈ c.cachedRequests, x ≠ reqId → (c.localTrees.get? x).isSome → x ∈ active)
    (hcount : active.length < 0x80000000) (hlimit : c.maxCachedRequests ≠ 0)
    (hbound : 0 ≤ c.maxCachedRequests → (c.cachedRequests.length : Int) ≤ c.maxCachedRequests) :
    ∃ c' seqId, c.openSlot layouts fuel reqId = some (.ok (), c') ∧
      Linked (Function.update responses reqId []) c' ∧ c'.reqToSeqId.get? reqId = some seqId ∧
      (∀ x, x ≠ reqId → c.reqToSeqId.get? x = some seqId → c.localTrees.get? x = none) ∧
      c'.cachedRequests = newest c.maxCachedRequests (c.cachedRequests.filter fun x =>
        x ≠ reqId ∧ c.reqToSeqId.get? x ≠ some seqId) ++ [reqId] ∧ SameRequests c c' := by
  -- The request's own old response is evicted first.
  obtain ⟨c₁, hslot, h₁, hcached, hget, hsame⟩ : ∃ c₁ : SuffixDecodingCache κ,
      c.openSlot layouts fuel reqId = c₁.generateSeqId layouts fuel reqId ∧
      Linked responses c₁ ∧ c₁.cachedRequests = (c.cachedRequests.filter fun x => x ≠ reqId) ∧
      (∀ x, x ≠ reqId → c₁.reqToSeqId.get? x = c.reqToSeqId.get? x) ∧ SameRequests c c₁ := by
    cases hget : c.reqToSeqId.get? reqId with
    | none =>
      refine ⟨c, ?_, h, ?_, fun _ _ => rfl, rfl, rfl⟩
      · simp [openSlot, hlimit, hget]
      · rw [eq_comm, filter_eq_self]
        intro x hx
        rw [decide_eq_true_eq]
        rintro rfl
        exact (c.reqToSeqId.get?_eq_none).mp hget hx
    | some s =>
      refine ⟨c.drop layouts reqId s, ?_, drop_linked h layouts hget, ?_, ?_, rfl, rfl⟩
      · simp [openSlot, hlimit, hget, evictCachedResponse_eq h.inverse layouts hget]
      · have hnodup : c.cachedRequests.Nodup := c.reqToSeqId.keys_nodup
        rw [cachedRequests_drop, hnodup.erase_eq_filter]
        apply filter_congr
        intro x _
        rw [Bool.eq_iff_iff]
        simp
      · intro x hx
        simp [drop, hx]
  have hreq : reqId ∉ c₁.cachedRequests := by
    rw [hcached]
    simp
  have h₂ : Linked (Function.update responses reqId []) c₁ := by
    apply h₁.congr
    intro x hx
    rw [update_of_ne]
    rintro rfl
    exact hreq hx
  have hactive₁ : ∀ x ∈ c₁.cachedRequests, (c₁.localTrees.get? x).isSome → x ∈ active := by
    intro x hx hlocal
    rw [hcached, mem_filter, decide_eq_true_eq] at hx
    rw [hsame.localTrees] at hlocal
    exact hactive x hx.1 hx.2 hlocal
  have hbound₁ : 0 ≤ c₁.maxCachedRequests →
      (c₁.cachedRequests.length : Int) ≤ c₁.maxCachedRequests := by
    have hlength := length_filter_le (fun x => x ≠ reqId) c.cachedRequests
    rw [hsame.maxCachedRequests, hcached]
    intro hpos
    have := hbound hpos
    omega
  obtain ⟨c', seqId, hgen, hlinked, hnew, howner, hkeys, hsame'⟩ := generateSeqId_eq h₂ layouts
    hfuel hactive₁ hcount hreq (update_self _ _ _)
    (by rwa [hsame.maxCachedRequests]) hbound₁
  refine ⟨c', seqId, hslot.trans hgen, hlinked, hnew, ?_, ?_,
    hsame'.localTrees.trans hsame.localTrees,
    hsame'.maxCachedRequests.trans hsame.maxCachedRequests⟩
  · intro x hx hs
    rw [← hsame.localTrees]
    exact howner x (by rw [hget x hx, hs])
  · rw [hkeys, hsame.maxCachedRequests, hcached, filter_filter]
    congr 2
    apply filter_congr
    intro x _
    by_cases hx : x = reqId
    · simp [hx]
    · simp [hx, hget x hx]

end

end Evict

/-! ## Responses -/

theorem extend_linked {responses : κ → List Key} {reqId : κ} {seqId : SeqId}
    (h : Linked responses c) (hget : c.reqToSeqId.get? reqId = some seqId) (tokens : List Key) :
    Linked (Function.update responses reqId (responses reqId ++ tokens))
      { c with globalTree := SuffixTree.extend c.globalTree seqId.key tokens } := by
  obtain ⟨hself, hother⟩ := SuffixTree.extend_seqs c.globalTree seqId.key tokens
  constructor
  case inverse => exact h.inverse
  case cached =>
    intro x s hs
    by_cases hx : x = reqId
    · subst hx
      have hsame : s = seqId := by
        have : c.reqToSeqId.get? x = some s := hs
        rw [hget] at this
        exact (Option.some.inj this).symm
      have hseq : c.globalTree.seq seqId.key = responses x := by
        rw [SuffixTree.State.seq, h.cached x seqId hget]
        split_ifs with hnil
        · rw [hnil]
          rfl
        · rfl
      rw [hsame, hself, update_self, hseq]
      by_cases htokens : tokens = []
      · rw [if_pos htokens, htokens, append_nil]
        exact h.cached x seqId hget
      · rw [if_neg htokens, if_neg (by simp [htokens])]
    · have hne : s ≠ seqId := by
        rintro rfl
        exact hx (h.seqId_inj hs hget)
      rw [update_of_ne hx, hother _ fun hkey => hne (SeqId.key_injective hkey)]
      exact h.cached x s hs
  case others =>
    intro t ht
    rw [hother t (Ne.symm (ht reqId seqId hget))]
    exact h.others t ht

/-! ## Steps -/

/-- The cache agrees with the ledger. -/
structure Coherent (limit : Int) (l : Ledger κ) (c : SuffixDecodingCache κ) : Prop where
  limit_eq : c.maxCachedRequests = limit
  linked : Linked l.responses c
  active : c.activeRequests = l.active
  bound : 0 ≤ c.maxCachedRequests → (c.cachedRequests.length : Int) ≤ c.maxCachedRequests
  order : c.cachedRequests.Pairwise fun a b => l.startedAt a < l.startedAt b
  past : ∀ x ∈ c.cachedRequests, l.startedAt x < l.clock

section Steps

variable {limit : Int} {l : Ledger κ} {c : SuffixDecodingCache κ}

theorem coherent_init {maxTreeDepth : Nat} {maxCachedRequests : Int}
    (h : init maxTreeDepth maxCachedRequests = some c) : Coherent maxCachedRequests .init c := by
  unfold init at h
  split_ifs at h
  cases h
  constructor
  case limit_eq => rfl
  case linked => exact ⟨by simp, by simp, fun _ _ => rfl⟩
  case active => rfl
  case bound => exact fun h => h
  case order => exact List.Pairwise.nil
  case past => simp [cachedRequests]

theorem Coherent.isSome_iff (h : Coherent limit l c) (reqId : κ) :
    (c.localTrees.get? reqId).isSome ↔ reqId ∈ l.active := by
  rw [← h.active, activeRequests, Dict.mem_keys]

theorem Coherent.tick (h : Coherent limit l c) : Coherent limit l.tick c where
  limit_eq := h.limit_eq
  linked := h.linked
  active := h.active
  bound := h.bound
  order := h.order
  past := fun x hx => Nat.lt_succ_of_lt (h.past x hx)

theorem Coherent.order_start (h : Coherent limit l c) {reqId : κ} {older : List κ}
    (holder : older.Sublist c.cachedRequests) (hreq : reqId ∉ older) :
    (older ++ [reqId]).Pairwise fun a b =>
        Function.update l.startedAt reqId l.clock a < Function.update l.startedAt reqId l.clock b := by
  have hsame : ∀ x ∈ older, Function.update l.startedAt reqId l.clock x = l.startedAt x := by
    intro x hx
    apply update_of_ne
    rintro rfl
    exact hreq hx
  rw [pairwise_append]
  refine ⟨?_, pairwise_singleton _ _, ?_⟩
  · refine List.Pairwise.imp_of_mem ?_ (h.order.sublist holder)
    intro a b ha hb hab
    rwa [hsame a ha, hsame b hb]
  · intro a ha b hb
    rw [mem_singleton.mp hb, update_self, hsame a ha]
    exact h.past a (holder.subset ha)

omit [DecidableEq κ] in
theorem newest_sublist (limit : Int) (older : List κ) : (newest limit older).Sublist older := by
  unfold newest
  split_ifs
  · exact List.Sublist.refl _
  · exact drop_sublist _ _

omit [DecidableEq κ] in
theorem length_newest_le {limit : Int} (hlimit : 1 ≤ limit) (older : List κ) :
    ((newest limit older).length : Int) + 1 ≤ limit := by
  rw [newest, if_neg (by omega), length_drop]
  omega

variable {fuel : Nat}

section

variable (h : Coherent limit l c)
include h

/-- A start of a request that is not active, with valid tokens. -/
theorem startRequest_eq (hfuel : 0x80000000 ≤ fuel)
    (hcount : l.active.length < 0x80000000) {reqId : κ} (hreq : reqId ∉ l.active)
    {promptTokenIds : TokenIds} {tokens : List Key}
    (hvalid : (promptTokenIds.validate : Except (Error κ) (List Key)) = .ok tokens)
    (layouts : SeqId → Layout) :
    ∃ c', c.startRequest layouts fuel reqId promptTokenIds = some (.ok (), c') ∧
      Linked (Function.update l.responses reqId []) c' ∧
      c'.activeRequests = l.active ++ [reqId] ∧ c'.maxCachedRequests = c.maxCachedRequests ∧
      (c.maxCachedRequests = 0 → c'.cachedRequests = c.cachedRequests) ∧
      (c.maxCachedRequests ≠ 0 → ∃ seqId, c'.reqToSeqId.get? reqId = some seqId ∧
        (∀ x, x ≠ reqId → c.reqToSeqId.get? x = some seqId → x ∉ l.active) ∧
        c'.cachedRequests = newest c.maxCachedRequests (c.cachedRequests.filter fun x =>
          x ≠ reqId ∧ c.reqToSeqId.get? x ≠ some seqId) ++ [reqId]) := by
  have hnone : c.localTrees.get? reqId = none := by
    rw [← Option.not_isSome_iff_eq_none, h.isSome_iff]
    exact hreq
  have hkeys : (c.localTrees.set reqId
      (SuffixTree.extend (SuffixTree.init c.maxTreeDepth) (SeqId.key 0) tokens)).keys =
        l.active ++ [reqId] := by
    rw [Dict.keys_set, if_neg ((c.localTrees.get?_eq_none).mp hnone)]
    exact congrArg (· ++ [reqId]) h.active
  generalize hlocal : c.localTrees.set reqId
    (SuffixTree.extend (SuffixTree.init c.maxTreeDepth) (SeqId.key 0) tokens) = localTrees at hkeys
  have hstart : c.startRequest layouts fuel reqId promptTokenIds =
      openSlot layouts fuel { c with localTrees := localTrees } reqId := by
    simp [startRequest, hnone, hvalid, hlocal]
  have hother : ∀ x, x ≠ reqId → localTrees.get? x = c.localTrees.get? x := by
    intro x hx
    rw [← hlocal, Dict.get?_set_ne _ hx]
  have hlinked : Linked l.responses { c with localTrees := localTrees } :=
    ⟨h.linked.inverse, h.linked.cached, h.linked.others⟩
  rw [hstart]
  by_cases hlimit : c.maxCachedRequests = 0
  · -- The global cache is off, and nothing is cached.
    have hempty : c.cachedRequests = [] := by
      have := h.bound (le_of_eq hlimit.symm)
      rw [hlimit] at this
      exact length_eq_zero_iff.mp (by omega)
    refine ⟨{ c with localTrees := localTrees }, ?_, ?_, hkeys, rfl, fun _ => rfl,
      fun hne => absurd hlimit hne⟩
    · rw [openSlot, if_pos hlimit]
    · apply hlinked.congr
      intro x hx
      have hx : x ∈ c.cachedRequests := hx
      rw [hempty] at hx
      cases hx
  · have hactive : ∀ x ∈ c.cachedRequests, x ≠ reqId → (localTrees.get? x).isSome → x ∈ l.active := by
      intro x _ hx hsome
      rw [hother x hx, h.isSome_iff] at hsome
      exact hsome
    obtain ⟨c', seqId, hslot, hlinked', hget, howner, hcached, hsame⟩ :=
      openSlot_eq hlinked layouts hfuel hactive hcount hlimit h.bound
    refine ⟨c', hslot, hlinked', ?_, hsame.maxCachedRequests, fun h => absurd h hlimit,
      fun _ => ⟨seqId, hget, ?_, hcached⟩⟩
    · rw [activeRequests, hsame.localTrees]
      exact hkeys
    · intro x hx hs hmem
      have hgone : localTrees.get? x = none := howner x hx hs
      rw [hother x hx] at hgone
      have := (h.isSome_iff x).mpr hmem
      rw [hgone] at this
      cases this

theorem coherent_start (hfuel : 0x80000000 ≤ fuel)
    (hcount : l.active.length < 0x80000000) (reqId : κ) (promptTokenIds : TokenIds)
    (layouts : SeqId → Layout) :
    ∃ o, c.startRequest layouts fuel reqId promptTokenIds = some o ∧
      Coherent limit (l.step (.startRequest reqId promptTokenIds layouts)) o.2 := by
  cases hvalid : (promptTokenIds.validate : Except (Error κ) (List Key)) with
  | error e =>
    simp only [Ledger.step, hvalid]
    unfold startRequest
    split_ifs
    · exact ⟨_, rfl, h.tick⟩
    · simp only [hvalid]
      exact ⟨_, rfl, h.tick⟩
  | ok tokens =>
    simp only [Ledger.step, hvalid]
    by_cases hreq : reqId ∈ l.active
    · rw [startRequest, if_pos ((h.isSome_iff reqId).mpr hreq)]
      refine ⟨_, rfl, ?_⟩
      simp only [if_pos hreq]
      exact h.tick
    · obtain ⟨c', hstart, hlinked, hactive, hmax, hoff, hon⟩ :=
        startRequest_eq h hfuel hcount hreq hvalid layouts
      refine ⟨_, hstart, ?_⟩
      simp only [if_neg hreq]
      by_cases hlimit : c.maxCachedRequests = 0
      · have hempty : c'.cachedRequests = [] := by
          have := h.bound (le_of_eq hlimit.symm)
          rw [hlimit] at this
          rw [hoff hlimit]
          exact length_eq_zero_iff.mp (by omega)
        refine ⟨hmax.trans h.limit_eq, hlinked, hactive, ?_, ?_, ?_⟩
        · rw [hmax, hempty]
          exact fun h => h
        · rw [hempty]
          exact List.Pairwise.nil
        · simp [hempty]
      · obtain ⟨seqId, hget, howner, hcached⟩ := hon hlimit
        have hsub := (newest_sublist c.maxCachedRequests (c.cachedRequests.filter fun x =>
          x ≠ reqId ∧ c.reqToSeqId.get? x ≠ some seqId)).trans filter_sublist
        have hnotMem : reqId ∉ newest c.maxCachedRequests (c.cachedRequests.filter fun x =>
            x ≠ reqId ∧ c.reqToSeqId.get? x ≠ some seqId) := by
          intro hmem
          have := of_mem_filter ((newest_sublist _ _).subset hmem)
          simp at this
        have horder := h.order_start hsub hnotMem
        rw [← hcached] at horder
        refine ⟨hmax.trans h.limit_eq, hlinked, hactive, ?_, horder, ?_⟩
        · intro hpos
          rw [hmax] at hpos ⊢
          have hone : 1 ≤ c.maxCachedRequests := by omega
          have := length_newest_le hone (c.cachedRequests.filter fun x =>
            x ≠ reqId ∧ c.reqToSeqId.get? x ≠ some seqId)
          rw [hcached, length_append, length_singleton]
          exact_mod_cast this
        · intro x hx
          by_cases hx' : x = reqId
          · rw [hx']
            simp
          · rw [hcached, mem_append, mem_singleton] at hx
            have hold : Function.update l.startedAt reqId l.clock x = l.startedAt x :=
              update_of_ne hx' _ _
            apply Nat.lt_succ_of_lt
            exact lt_of_eq_of_lt hold (h.past x (hsub.subset (hx.resolve_right hx')))

theorem coherent_stop (reqId : κ) :
    Coherent limit (l.step (.stopRequest reqId)) (c.stopRequest reqId).2 := by
  have hsome := h.isSome_iff reqId
  unfold stopRequest
  split_ifs with hactive
  · refine ⟨h.limit_eq, ⟨h.linked.inverse, h.linked.cached, h.linked.others⟩, ?_, h.bound, h.order,
      h.tick.past⟩
    rw [activeRequests, Dict.keys_erase]
    exact congrArg (·.erase reqId) h.active
  · have herase : l.active.erase reqId = l.active := erase_of_not_mem (mt hsome.mpr hactive)
    rw [Ledger.step, herase]
    exact h.tick

theorem coherent_add (reqId : κ) (tokenIds : TokenIds) :
    Coherent limit (l.step (.addActiveResponse reqId tokenIds))
      (c.addActiveResponse reqId tokenIds).2 := by
  have hsome := h.isSome_iff reqId
  cases hlocal : c.localTrees.get? reqId with
  | none =>
    have hreq : reqId ∉ l.active := by
      rw [← hsome, hlocal]
      simp
    simp only [addActiveResponse, hlocal, Ledger.step, if_neg hreq]
    split <;> exact h.tick
  | some tree =>
    have hreq : reqId ∈ l.active := by
      rw [← hsome, hlocal]
      rfl
    cases hvalid : (tokenIds.validate : Except (Error κ) (List Key)) with
    | error e =>
      simp only [addActiveResponse, hlocal, hvalid, Ledger.step]
      exact h.tick
    | ok tokens =>
      simp only [addActiveResponse, hlocal, hvalid, Ledger.step, if_pos hreq]
      have hkeys : (c.localTrees.set reqId
          (SuffixTree.extend tree (SeqId.key 0) tokens)).keys = l.active := by
        rw [Dict.keys_set, if_pos ((c.localTrees.mem_keys).mpr (by rw [hlocal]; rfl))]
        exact h.active
      generalize c.localTrees.set reqId (SuffixTree.extend tree (SeqId.key 0) tokens) =
        localTrees at hkeys
      cases hget : c.reqToSeqId.get? reqId with
      | none =>
        refine ⟨h.limit_eq, ?_, hkeys, h.bound, h.order, h.tick.past⟩
        have hlinked : Linked l.responses { c with localTrees := localTrees } :=
          ⟨h.linked.inverse, h.linked.cached, h.linked.others⟩
        apply hlinked.congr
        intro x hx
        apply update_of_ne
        rintro rfl
        exact (c.reqToSeqId.get?_eq_none).mp hget hx
      | some seqId =>
        have hlinked := extend_linked h.linked hget tokens
        exact ⟨h.limit_eq, ⟨hlinked.inverse, hlinked.cached, hlinked.others⟩, hkeys, h.bound,
          h.order, h.tick.past⟩

theorem coherent_evict (reqId : κ) (layouts : SeqId → Layout) :
    Coherent limit (l.step (.evictCachedResponse reqId layouts))
      (c.evictCachedResponse layouts reqId).2 := by
  cases hget : c.reqToSeqId.get? reqId with
  | none =>
    simp only [evictCachedResponse, hget]
    exact h.tick
  | some seqId =>
    have hsub : (c.drop layouts reqId seqId).cachedRequests.Sublist c.cachedRequests := by
      rw [cachedRequests_drop]
      exact erase_sublist
    rw [evictCachedResponse_eq h.linked.inverse layouts hget]
    refine ⟨h.limit_eq, drop_linked h.linked layouts hget, h.active, ?_, h.order.sublist hsub, ?_⟩
    · intro hpos
      have hlength := hsub.length_le
      have := h.bound hpos
      exact le_trans (by exact_mod_cast hlength) this
    · exact fun x hx => h.tick.past x (hsub.subset hx)

/-- Every call ends, and keeps the cache coherent with the ledger. -/
theorem coherent_step (hfuel : 0x80000000 ≤ fuel)
    (hcount : l.active.length < 0x80000000) (call : Call κ) :
    ∃ o, c.step fuel call = some o ∧ Coherent limit (l.step call) o.2 := by
  cases call with
  | startRequest reqId promptTokenIds layouts =>
    exact coherent_start h hfuel hcount reqId promptTokenIds layouts
  | stopRequest reqId => exact ⟨_, rfl, coherent_stop h reqId⟩
  | addActiveResponse reqId tokenIds => exact ⟨_, rfl, coherent_add h reqId tokenIds⟩
  | evictCachedResponse reqId layouts => exact ⟨_, rfl, coherent_evict h reqId layouts⟩

end

end Steps

/-! ## Runs -/

/-- The cache agrees with the ledger after any calls with fewer than 2^31 active requests. -/
theorem run_coherent {c₀ : SuffixDecodingCache κ} {maxTreeDepth : Nat} {maxCachedRequests : Int}
    (hinit : init maxTreeDepth maxCachedRequests = some c₀) (hfuel : 0x80000000 ≤ fuel)
    (calls : List (Call κ))
    (hcount : ∀ done, done <+: calls → (Ledger.ofCalls done).active.length < 0x80000000) :
    ∃ c, c₀.run fuel calls = some c ∧ Coherent maxCachedRequests (.ofCalls calls) c := by
  induction calls using List.reverseRecOn with
  | nil => exact ⟨c₀, rfl, coherent_init hinit⟩
  | append_singleton calls call ih =>
    obtain ⟨c, hrun, hc⟩ := ih fun done hdone => hcount done (hdone.trans (prefix_append _ _))
    obtain ⟨o, hstep, ho⟩ := coherent_step hc hfuel (hcount calls (prefix_append _ _)) call
    refine ⟨o.2, ?_, ?_⟩
    · rw [run, foldlM_append]
      simp only [run] at hrun
      simp [hrun, hstep]
    · rw [Ledger.ofCalls, foldl_append]
      exact ho

/-- After any calls with fewer than 2^31 active requests, all of which end: the dictionaries are
inverse to each other, so that no two cached requests share a sequence id; the limit holds; the
global tree has the responses of the cached requests since they were last started; the cached
requests are in the order of their starts; and the next start evicts from the oldest on, besides
the request's own old response and the one of an inactive request whose sequence id it takes. -/
theorem run_caches_responses {c₀ : SuffixDecodingCache κ} {maxTreeDepth : Nat}
    {maxCachedRequests : Int} (hinit : init maxTreeDepth maxCachedRequests = some c₀) {fuel : Nat}
    (hfuel : 0x80000000 ≤ fuel) (calls : List (Call κ))
    (hcount : ∀ done, done <+: calls → (Ledger.ofCalls done).active.length < 0x80000000) :
    ∃ c, c₀.run fuel calls = some c ∧ (∀ reqId seqId,
        c.reqToSeqId.get? reqId = some seqId ↔ c.seqToReqId.get? seqId = some reqId) ∧
      (∀ a b seqId, c.reqToSeqId.get? a = some seqId → c.reqToSeqId.get? b = some seqId → a = b) ∧
      (0 ≤ maxCachedRequests → (c.cachedRequests.length : Int) ≤ maxCachedRequests) ∧
      (∀ t T, c.globalTree.seqs.lookup t = some T ↔
        ∃ reqId seqId, c.reqToSeqId.get? reqId = some seqId ∧ seqId.key = t ∧
          (Ledger.ofCalls calls).responses reqId = T ∧ T ≠ []) ∧
      (c.cachedRequests.Pairwise fun a b =>
        (Ledger.ofCalls calls).startedAt a < (Ledger.ofCalls calls).startedAt b) ∧
      ∀ reqId promptTokenIds layouts tokens, reqId ∉ (Ledger.ofCalls calls).active →
        (promptTokenIds.validate : Except (Error κ) (List Key)) = .ok tokens →
        maxCachedRequests ≠ 0 →
        ∃ c' seqId, c.step fuel (.startRequest reqId promptTokenIds layouts) = some (.ok (), c') ∧
          c'.reqToSeqId.get? reqId = some seqId ∧
          (∀ x, x ≠ reqId → c.reqToSeqId.get? x = some seqId → x ∉ (Ledger.ofCalls calls).active) ∧
          c'.cachedRequests = newest maxCachedRequests (c.cachedRequests.filter fun x =>
            x ≠ reqId ∧ c.reqToSeqId.get? x ≠ some seqId) ++ [reqId] := by
  obtain ⟨c, hrun, hc⟩ := run_coherent hinit hfuel calls hcount
  have hlinked := hc.linked
  have hlimit := hc.limit_eq
  have hbound := hc.bound
  rw [hlimit] at hbound
  refine ⟨c, hrun, hlinked.inverse, fun _ _ _ => hlinked.seqId_inj, hbound, ?_, hc.order, ?_⟩
  · intro t T
    constructor
    · intro ht
      by_contra hnone
      push Not at hnone
      have hgone := hlinked.others t
      rw [ht] at hgone
      apply Option.some_ne_none T
      apply hgone
      rintro reqId seqId hget rfl
      have hcached := hlinked.cached reqId seqId hget
      rw [ht] at hcached
      split_ifs at hcached with hnil
      have hT := Option.some.inj hcached
      exact hnil (hT ▸ hnone reqId seqId hget rfl hT.symm)
    · rintro ⟨reqId, seqId, hget, rfl, rfl, hne⟩
      rw [hlinked.cached reqId seqId hget, if_neg hne]
  · intro reqId promptTokenIds layouts tokens hreq hvalid hne
    obtain ⟨c', hstart, -, -, -, -, hon⟩ := startRequest_eq hc hfuel
      (hcount calls (prefix_refl _)) hreq hvalid layouts
    rw [hlimit] at hon
    obtain ⟨seqId, hget, howner, hcached⟩ := hon hne
    exact ⟨c', seqId, hstart, hget, howner, hcached⟩

/-- Two requests in a cache of one: the second evicts the first. -/
def twoStarts : List (Call Nat) :=
  [.startRequest 7 (.sequence []) fun _ => ⟨fun _ _ _ => 0, fun _ _ => 0⟩,
    .addActiveResponse 7 (.sequence [SeqId.key ⟨5, by decide⟩]),
    .startRequest 8 (.sequence []) fun _ => ⟨fun _ _ _ => 0, fun _ _ => 0⟩]

theorem run_caches_responses_twoStarts :
    ∃ c₀ c : SuffixDecodingCache Nat, init 4 1 = some c₀ ∧ c₀.run 0x80000000 twoStarts = some c ∧
      (c.cachedRequests.length : Int) ≤ 1 := by
  have hcount : ∀ done ∈ twoStarts.inits, (Ledger.ofCalls done).active.length < 0x80000000 := by
    decide
  have hinit : ∃ c₀ : SuffixDecodingCache Nat, init 4 1 = some c₀ := ⟨_, rfl⟩
  obtain ⟨c₀, hinit⟩ := hinit
  obtain ⟨c, hrun, -, -, hbound, -⟩ := run_caches_responses hinit le_rfl twoStarts
    fun done hdone => hcount done ((mem_inits done twoStarts).mpr hdone)
  exact ⟨c₀, c, hinit, hrun, hbound (by decide)⟩

end SuffixDecodingCache

end ArcticPlatform.SuffixCache
