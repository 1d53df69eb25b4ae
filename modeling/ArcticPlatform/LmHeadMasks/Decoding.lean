import ArcticPlatform.LmHeadMasks.Interning
import ArcticPlatform.LmHeadMasks.Tiles
import Mathlib

/-!
# Action masks: decoding a payload

The checks of a payload do not look at its set indices and at the order of its offsets.
A payload whose sets lie in its tokens is decoded in both ways, and both give the same
constraints.  Entries come back from the payload that is made of them, in the order of
their positions, without those that have no tokens.

Main results:

- Theorem `decodes_of_hasSet`: a payload with its sets is decoded.
- Theorem `entries_fromEntries`: entries that are read back.
-/

namespace ArcticPlatform.LmHeadMasks

open Dicts Results Slices Tensors List

/-- The set with an index exists and is a part of the tokens. -/
structure HasSet (m : ActionMasks) (i : Int) : Prop where
  nonneg : 0 ≤ i
  lt : i < m.setModesAllow.length
  start : 0 ≤ m.setOffsets.getD i.toNat 0
  le : m.setOffsets.getD i.toNat 0 ≤ m.setOffsets.getD (i.toNat + 1) 0
  stop : m.setOffsets.getD (i.toNat + 1) 0 ≤ m.tokenIds.length

/-- The tokens of a set: a contiguous part of the tokens of the payload. -/
def setTokens (m : ActionMasks) (i : Int) : List Int :=
  slice m.tokenIds (m.setOffsets.getD i.toNat 0).toNat (m.setOffsets.getD (i.toNat + 1) 0).toNat

section Decode

variable {m : ActionMasks}

theorem HasSet.setAt_eq {i : Int} (h : HasSet m i) :
    setAt m i = (m.setModesAllow.getD i.toNat false, setTokens m i) := by
  have hsucc : (i + 1).toNat = i.toNat + 1 := by
    have := h.nonneg
    omega
  obtain ⟨start, hstart⟩ := Int.eq_ofNat_of_zero_le h.start
  obtain ⟨stop, hstop⟩ := Int.eq_ofNat_of_zero_le (h.start.trans h.le)
  have hle := h.stop
  rw [hstop, Int.ofNat_le] at hle
  rw [setAt, setTokens, hsucc, hstart, hstop, sliceInt_natCast hle, Int.toNat_natCast,
    Int.toNat_natCast]

theorem entries_of_hasSet (hm : Normalized m) (hsets : ∀ i ∈ m.setIndices, HasSet m i) :
    actionMaskEntries (some m) = .ok ((m.positions.zip m.setIndices).map fun p =>
      ⟨p.1, m.setModesAllow.getD p.2.toNat false, setTokens m p.2⟩) := by
  rw [actionMaskEntries, normalize_eq_ok.mpr ⟨hm, rfl⟩]
  apply mapM_ok
  intro p hp
  have hset := hsets p.2 (of_mem_zip hp).2
  have hnonneg := hset.nonneg
  have hlt := hset.lt
  rw [entryAt_eq hm hnonneg (by omega), hset.setAt_eq]

theorem toLmHead_of_hasSet (hm : Normalized m) (hsets : ∀ i ∈ m.setIndices, HasSet m i) :
    ∃ lm, actionMasksToLmHead (some m) = .ok lm := by
  have hkept : ∀ p ∈ keptPairs m, HasSet m p.2 :=
    fun p hp => hsets p.2 (of_mem_zip (mem_of_mem_filter hp)).2
  have hsucc : ∀ p ∈ keptPairs m, (p.2 + 1).toNat = p.2.toNat + 1 := by
    intro p hp
    have := (hkept p hp).nonneg
    omega
  obtain ⟨pairs, hpairs⟩ := expand_isOk hm.count
    (fun p hp => by
      have hnonneg := (hkept p hp).nonneg
      have hlt := (hkept p hp).lt
      omega)
    (fun p hp => by
      have hle := (hkept p hp).le
      refine ⟨(hkept p hp).start, ?_, ?_⟩
      · rw [setLength, hsucc p hp]
        omega
      · rw [hsucc p hp]
        exact (hkept p hp).stop)
  exact ⟨_, toLmHead_eq_ok.mpr ⟨hm, pairs, hpairs, rfl⟩⟩

/-- A payload with its sets is decoded in both ways, to the same constraints. -/
theorem decodes_of_hasSet (hm : Normalized m) (hsets : ∀ i ∈ m.setIndices, HasSet m i) :
    ∃ es lm, actionMaskEntries (some m) = .ok es ∧ actionMasksToLmHead (some m) = .ok (some lm) ∧
      Represents lm (beforeTargets es) ∧ es = (m.positions.zip m.setIndices).map fun p =>
        ⟨p.1, m.setModesAllow.getD p.2.toNat false, setTokens m p.2⟩ := by
  obtain ⟨lm, hlm⟩ := toLmHead_of_hasSet hm hsets
  have hes := entries_of_hasSet hm hsets
  obtain ⟨-, lm, rfl, hrep, -, -, hindex⟩ := represents_toLmHead hlm
  rw [sourceItems_eq hes hindex] at hrep
  exact ⟨_, lm, hes, hlm, hrep, rfl⟩

end Decode

/-! ## Round trips -/

section RoundTrip

variable {es entries : List ActionMaskEntry} {s : Interning} {sets : List (Bool × List Int)}
  {seqLen vocabSize : Int}

theorem Interned.entries_payload (h : Interned es s sets)
    (hm : Normalized (s.payload seqLen vocabSize)) :
    actionMaskEntries (some (s.payload seqLen vocabSize)) = .ok ((withTokens es).map sortIds) := by
  rw [actionMaskEntries, normalize_eq_ok.mpr ⟨hm, rfl⟩]
  apply mapM_eq_ok.mpr
  rw [forall₂_map_right_iff]
  apply h.pairs.imp
  intro p e hp
  obtain ⟨hposition, hrefers⟩ := hp
  have hlt : p.2.toNat < (s.payload seqLen vocabSize).setModesAllow.length := by
    simp only [Interning.payload, h.modes, length_map]
    exact (List.getElem?_eq_some_iff.mp hrefers.2).1
  rw [entryAt_eq hm hrefers.1 hlt, h.setAt_eq hrefers, hposition]
  rfl

theorem normalize_fromEntries {r : Option ActionMasks}
    (h : actionMasksFromEntries seqLen vocabSize entries = .ok r) :
    normalizeActionMasks r = .ok r := by
  rw [fromEntries_eq] at h
  split_ifs at h with hnil
  · rw [← Except.ok.inj h]
    rfl
  · obtain ⟨hm, rfl⟩ := normalize_eq_ok.mp h
    exact normalize_eq_ok.mpr ⟨hm, rfl⟩

/-- Entries come back in the order of their positions, without those that have no tokens. -/
theorem entries_fromEntries (hnodup : (entries.map (·.position)).Nodup)
    (hseqLen : ∀ e ∈ entries, e.position < seqLen)
    (htokens : ∀ e ∈ entries, ∀ t ∈ e.ids, 0 ≤ t ∧ t < vocabSize) :
    ∃ r out, actionMasksFromEntries seqLen vocabSize entries = .ok r ∧
      actionMaskEntries r = .ok out ∧ out.Perm ((withTokens entries).map sortIds) ∧
      out.Pairwise fun a b => a.position < b.position := by
  obtain ⟨sets, h⟩ := interned_foldl (byPosition entries)
  have hperm := withTokens_byPosition entries
  have hmem : ∀ e ∈ withTokens (byPosition entries), e ∈ entries :=
    fun e he => mem_of_mem_filter (hperm.mem_iff.mp he)
  have hsorted : (withTokens (byPosition entries)).Pairwise fun a b => a.position < b.position :=
    withTokens_sorted (hnodup.sublist (filter_sublist.map _))
  have hnormalized := h.normalized hsorted (fun e he => hseqLen e (hmem e he))
    fun e he => htokens e (hmem e he)
  have hout : ((withTokens (byPosition entries)).map sortIds).Pairwise
      fun a b => a.position < b.position := pairwise_map.mpr hsorted
  rw [fromEntries_eq]
  split_ifs with hnil
  · rw [hnil] at hperm
    rw [nil_perm.mp hperm]
    exact ⟨none, [], rfl, rfl, Perm.nil, List.Pairwise.nil⟩
  · exact ⟨_, _, normalize_eq_ok.mpr ⟨hnormalized, rfl⟩, h.entries_payload hnormalized,
      hperm.map sortIds, hout⟩

end RoundTrip

/-- A payload with its sets is decoded in both ways to the same constraints, and entries at distinct
positions come back from the payload that is made of them. -/
theorem decode_encode {m : ActionMasks} (hm : normalizeActionMasks (some m) = .ok (some m))
    (hsets : ∀ i ∈ m.setIndices, HasSet m i) {seqLen vocabSize : Int}
    {entries : List ActionMaskEntry} (hnodup : (entries.map (·.position)).Nodup)
    (hseqLen : ∀ e ∈ entries, e.position < seqLen)
    (htokens : ∀ e ∈ entries, ∀ t ∈ e.ids, 0 ≤ t ∧ t < vocabSize) :
    (∃ es lm, actionMaskEntries (some m) = .ok es ∧ actionMasksToLmHead (some m) = .ok (some lm) ∧
        Represents lm (beforeTargets es) ∧ es = (m.positions.zip m.setIndices).map fun p =>
          ⟨p.1, m.setModesAllow.getD p.2.toNat false, setTokens m p.2⟩) ∧
      ∃ r out, actionMasksFromEntries seqLen vocabSize entries = .ok r ∧
        actionMaskEntries r = .ok out ∧ out.Perm ((withTokens entries).map sortIds) ∧
        out.Pairwise fun a b => a.position < b.position :=
  ⟨decodes_of_hasSet (normalize_eq_ok.mp hm).1 hsets, entries_fromEntries hnodup hseqLen htokens⟩

theorem decode_encode_two :
    (∃ es lm, actionMaskEntries (some twoConstraints) = .ok es ∧
        actionMasksToLmHead (some twoConstraints) = .ok (some lm) ∧
        Represents lm (beforeTargets es) ∧
        es = (twoConstraints.positions.zip twoConstraints.setIndices).map fun p =>
          ⟨p.1, twoConstraints.setModesAllow.getD p.2.toNat false, setTokens twoConstraints p.2⟩) ∧
      ∃ r out, actionMasksFromEntries 4 3 [⟨3, false, [2, 0]⟩, ⟨1, true, [1]⟩] = .ok r ∧
        actionMaskEntries r = .ok out ∧
        out.Perm ((withTokens [⟨3, false, [2, 0]⟩, ⟨1, true, [1]⟩]).map sortIds) ∧
        out.Pairwise fun a b => a.position < b.position := by
  refine decode_encode (by decide) ?_ (by decide) (by decide) (by decide)
  intro i hi
  simp only [twoConstraints, mem_cons, not_mem_nil, or_false] at hi
  rcases hi with rfl | rfl
  · exact ⟨by decide, by decide, by decide, by decide, by decide⟩
  · exact ⟨by decide, by decide, by decide, by decide, by decide⟩

/-- Accepted payloads that are not decoded, an entry that is dropped and one that is refused. -/
theorem decode_fails :
    (normalizeActionMasks (some ⟨2, 4, [1], [7], [true], [0, 1], [3]⟩) =
        .ok (some ⟨2, 4, [1], [7], [true], [0, 1], [3]⟩) ∧
      actionMaskEntries (some ⟨2, 4, [1], [7], [true], [0, 1], [3]⟩) = .error .listIndex) ∧
    (normalizeActionMasks (some ⟨2, 4, [1], [0], [true, true], [0, 5, 1], [3]⟩) =
        .ok (some ⟨2, 4, [1], [0], [true, true], [0, 5, 1], [3]⟩) ∧
      actionMasksToLmHead (some ⟨2, 4, [1], [0], [true, true], [0, 5, 1], [3]⟩) =
        .error (.tensor .indexOutOfRange)) ∧
    (actionMasksFromEntries 2 4 [⟨1, true, []⟩] = .ok none ∧ actionMaskEntries none = .ok []) ∧
    actionMasksFromEntries 2 4 [⟨1, true, [4]⟩] = .error .tokenIdsExceedVocabSize := by
  refine ⟨⟨by decide, by decide⟩, ⟨by decide, by decide⟩, ⟨by decide, by decide⟩, by decide⟩

end ArcticPlatform.LmHeadMasks
