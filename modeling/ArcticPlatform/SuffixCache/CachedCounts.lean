import ArcticPlatform.SuffixCache.Atomicity

/-!
# Suffix decoding cache: what the global tree counts

Main results:

- Theorem `Linked.occurrences_eq`: the occurrences in the global tree are those in the responses
  of the cached requests.
- Theorem `run_counts_cached`: what matching in the global tree reports after any calls.
-/

namespace ArcticPlatform.SuffixCache

open Dicts List Option
open SuffixTree (Key Layout matchCount occurrences occurrencesIn)

namespace SuffixDecodingCache

variable {κ : Type} [DecidableEq κ] {c : SuffixDecodingCache κ}

theorem Linked.occurrences_eq {responses : κ → List Key} (h : Linked responses c) (w : List Key) :
    occurrences c.globalTree.seqs w =
      (c.cachedRequests.map fun reqId => occurrencesIn w (responses reqId)).sum := by
  let sequence (e : κ × SeqId) : Sigma fun _ : Key => List Key := ⟨e.2.key, responses e.1⟩
  have hperm : ((c.reqToSeqId.entries.map sequence).filter (·.2 ≠ [])).Perm
      c.globalTree.seqs.entries := by
    refine (perm_ext_iff_of_nodup ?_ c.globalTree.seqs.nodupKeys.nodup).mpr ?_
    · refine Nodup.filter _ (Nodup.map_on ?_ c.reqToSeqId.nodup.of_map)
      intro e he e' he' heq
      have hseq : e.2 = e'.2 := SeqId.key_injective (Sigma.mk.inj heq).1
      refine Prod.ext (h.seqId_inj (c.reqToSeqId.get?_eq_some.mpr he) ?_) hseq
      rw [hseq]
      exact c.reqToSeqId.get?_eq_some.mpr he'
    · rintro ⟨t, T⟩
      rw [← AList.mem_lookup_iff, mem_def, mem_filter, List.mem_map]
      constructor
      · rintro ⟨⟨e, he, heq⟩, hne⟩
        cases heq
        rw [h.cached e.1 e.2 (c.reqToSeqId.get?_eq_some.mpr he), if_neg (by simpa using hne)]
      · intro hlookup
        by_contra hnone
        have hgone := h.others t fun reqId seqId hget hkey => by
          subst hkey
          rw [h.cached reqId seqId hget] at hlookup
          split_ifs at hlookup with hnil
          cases hlookup
          exact hnone ⟨⟨_, c.reqToSeqId.get?_eq_some.mp hget, rfl⟩, by simpa using hnil⟩
        rw [hlookup] at hgone
        cases hgone
  have hsum : ∀ l : List (κ × SeqId),
      ((((l.map sequence).filter (·.2 ≠ [])).map fun e => occurrencesIn w e.2)).sum =
        ((l.map Prod.fst).map fun reqId => occurrencesIn w (responses reqId)).sum := by
    intro l
    induction l with
    | nil => rfl
    | cons e l ih =>
      by_cases hnil : responses e.1 = []
      · simpa [sequence, hnil, occurrencesIn] using ih
      · simpa [sequence, hnil] using ih
  rw [occurrences, ← (hperm.map _).sum_eq, hsum]
  rfl

/-! ## Depth and trees -/

section Depth

variable {layouts : SeqId → Layout} {seqId : SeqId} {fuel : Nat} {reqId : κ} {o : Outcome κ}

theorem depth_evictCachedResponse :
    (c.evictCachedResponse layouts reqId).2.maxTreeDepth = c.maxTreeDepth := by
  grind [evictCachedResponse]

theorem depth_reclaim : (reclaim layouts c seqId).2.maxTreeDepth = c.maxTreeDepth := by
  grind [reclaim]

theorem depth_evictLoop (h : evictLoop layouts seqId fuel c = some o) :
    o.2.maxTreeDepth = c.maxTreeDepth := by
  induction fuel generalizing c with
  | zero => cases h
  | succ fuel ih => grind [evictLoop, depth_evictCachedResponse]

theorem depth_generateSeqId (h : c.generateSeqId layouts fuel reqId = some o) :
    o.2.maxTreeDepth = c.maxTreeDepth := by
  grind [generateSeqId, depth_reclaim, maybeEvictRequests, → depth_evictLoop]

theorem depth_openSlot (h : c.openSlot layouts fuel reqId = some o) :
    o.2.maxTreeDepth = c.maxTreeDepth := by
  grind [openSlot, depth_evictCachedResponse, → depth_generateSeqId]

theorem depth_step {call : Call κ} (h : c.step fuel call = some o) :
    o.2.maxTreeDepth = c.maxTreeDepth := by
  cases call <;>
    grind [step, startRequest, stopRequest, addActiveResponse, depth_evictCachedResponse,
      → depth_openSlot]

end Depth

variable {fuel : Nat}

theorem step_sound {call : Call κ} {o : Outcome κ} (h : Sound c)
    (hstep : c.step fuel call = some o) : Sound o.2 := by
  cases call with
  | startRequest reqId promptTokenIds layouts =>
    simp only [step, startRequest] at hstep
    split_ifs at hstep
    · exact some.inj hstep ▸ h
    · split at hstep
      · exact some.inj hstep ▸ h
      · exact (openSlot_sound (h.setLocal ((TreeOk.init _).extend _ _) reqId) hstep).2
  | stopRequest reqId =>
    have hraw := @stepRaw_sound κ _ c 0 (.stopRequest reqId) _ h trivial rfl
    exact some.inj hstep ▸ hraw.1
  | addActiveResponse reqId tokenIds =>
    obtain rfl := some.inj hstep
    simp only [addActiveResponse]
    split
    · exact h
    · rename_i tree hlocal
      split
      · exact h
      · rename_i tokens _
        have hsound := h.setLocal ((h.localTrees reqId tree hlocal).extend (SeqId.key 0) tokens) reqId
        split
        · exact hsound
        · exact ⟨hsound.paired, h.globalTree.extend _ tokens, hsound.localTrees⟩
  | evictCachedResponse reqId layouts =>
    have hraw := @stepRaw_sound κ _ c 0 (.evictCachedResponse reqId layouts) _ h trivial rfl
    exact some.inj hstep ▸ hraw.1

theorem run_sound (calls : List (Call κ)) {c' : SuffixDecodingCache κ} (h : Sound c)
    (hrun : c.run fuel calls = some c') : Sound c' ∧ c'.maxTreeDepth = c.maxTreeDepth := by
  induction calls generalizing c with
  | nil => exact some.inj hrun ▸ ⟨h, rfl⟩
  | cons call calls ih =>
    obtain ⟨d, hd, hrest⟩ := bind_eq_some_iff.mp hrun
    obtain ⟨o, hstep, rfl⟩ := map_eq_some_iff.mp hd
    exact (ih (step_sound h hstep) hrest).imp_right (·.trans (depth_step hstep))

/-- What matching in the global tree reports after any calls is the number of occurrences in the
responses of the cached requests: those that were evicted leave no trace. -/
theorem run_counts_cached {c₀ : SuffixDecodingCache κ} {maxTreeDepth : Nat}
    {maxCachedRequests : Int} (hinit : init maxTreeDepth maxCachedRequests = some c₀)
    (hfuel : 0x80000000 ≤ fuel) (calls : List (Call κ))
    (hcount : ∀ done, done <+: calls → (Ledger.ofCalls done).active.length < 0x80000000) :
    ∃ c, c₀.run fuel calls = some c ∧ ∀ w, w ≠ [] → w.length ≤ maxTreeDepth →
      let found := (c.cachedRequests.map fun reqId =>
        occurrencesIn w ((Ledger.ofCalls calls).responses reqId)).sum
      matchCount c.globalTree w = if 0 < found then some (found : Int) else none := by
  obtain ⟨c, hrun, hc⟩ := run_coherent hinit hfuel calls hcount
  refine ⟨c, hrun, fun w hw hlen => ?_⟩
  obtain ⟨⟨-, htree, -⟩, hdepth⟩ := run_sound calls (init_sound hinit) hrun
  have hdepth₀ : c₀.maxTreeDepth = maxTreeDepth := by
    rw [init] at hinit
    split_ifs at hinit
    exact some.inj hinit ▸ rfl
  rw [← hdepth₀, ← hdepth] at hlen
  obtain ⟨F, P, hgood⟩ := htree.good ((length_pos_of_ne_nil hw).trans_le hlen)
  rw [hgood.inv.matchCount_eq, hgood.cnt_eq_occurrences (htree.maxDepth.symm ▸ hlen),
    hc.linked.occurrences_eq]
  simp [hw]

/-- A token of the first request, which the second one evicts. -/
theorem run_counts_cached_twoStarts :
    ∃ c₀ c : SuffixDecodingCache Nat, init 4 1 = some c₀ ∧ c₀.run 0x80000000 twoStarts = some c ∧
      let found := (c.cachedRequests.map fun reqId =>
        occurrencesIn [SeqId.key 5] ((Ledger.ofCalls twoStarts).responses reqId)).sum
      matchCount c.globalTree [SeqId.key 5] = if 0 < found then some (found : Int) else none := by
  have hcount : ∀ done ∈ twoStarts.inits, (Ledger.ofCalls done).active.length < 0x80000000 := by
    decide
  obtain ⟨c₀, hinit⟩ : ∃ c₀ : SuffixDecodingCache Nat, init 4 1 = some c₀ := ⟨_, rfl⟩
  obtain ⟨c, hrun, hfound⟩ := run_counts_cached hinit le_rfl twoStarts
    fun done hdone => hcount done ((mem_inits done twoStarts).mpr hdone)
  exact ⟨c₀, c, hinit, hrun, hfound [SeqId.key 5] (by decide) (by decide)⟩

end SuffixDecodingCache

end ArcticPlatform.SuffixCache
