import ArcticPlatform.SuffixTree.Runs

/-!
# Suffix tree: context matching

A position in the tree is a prefix of the string of a node that is longer than
the string of its parent.  Matching follows the tokens of the context from the
root, so that it reaches a position exactly when the context occurs, and the
node below the position counts its occurrences.

Main results:

- Theorem `matchContext_isSome_iff`: a context matches when its count in the
  family is positive.
- Theorem `matchContext_count`: the node that is reached carries that count.
- Theorem `Good.cnt_eq_occurrences`: the count in the family is the number
  of occurrences in the live sequences.
-/

namespace ArcticPlatform.SuffixTree

open CompressedTrie StringFamily List

/-! ## Positions -/

section Positions

variable {st : State} {F : Suffixes} {C : Key → Prop} {P : Paths}

theorem Inv.refToken_eq (h : Inv st F C P) {i : NodeId} {v u : List Key} {idx : Nat}
    (hi : P i = some v) (hidx : u.length + (st.node i).length = v.length + idx)
    (hlt : idx < (st.node i).length) (hv : v ≠ []) : st.refToken i idx = v[u.length]? := by
  obtain ⟨⟨q, hq, hpre, -⟩, -⟩ := (h.node hi).ref hv
  have hpos : (st.node i).refIdx + (idx : Int) = (q : Int) + u.length := by omega
  rw [State.refToken, hpos]
  exact seqAt_of_prefix hpre (by omega)

/-- Matching from the position `u` inside the label of the node `v`. -/
theorem matchFrom_spec (h : Inv st F C P) (context : List Key) :
    ∀ (i : NodeId) (v u : List Key) (idx : Nat), P i = some v → u <+: v →
      u.length + (st.node i).length = v.length + idx → F.cnt u = F.cnt v →
      ((matchFrom st context i idx).isSome ↔ context = [] ∨ 0 < F.cnt (u ++ context)) ∧
        ∀ r, matchFrom st context i idx = some r →
          ((st.node r.1).count : Int) = F.cnt (u ++ context) := by
  induction context with
  | nil =>
    intro i v u idx hi _ _ hcnt
    refine ⟨by simp [matchFrom], ?_⟩
    rintro r hr
    obtain rfl : (i, idx) = r := by simpa [matchFrom] using hr
    rw [append_nil, hcnt]
    exact (h.node hi).count
  | cons a rest ih =>
    intro i v u idx hi huv hidx hcnt
    have hcons : ∀ x : List Key, x ++ a :: rest = x ++ [a] ++ rest := by simp
    have hlen := huv.length_le
    -- a context whose first token does not continue the position does not occur
    have hdead : matchFrom st (a :: rest) i idx = none → F.cnt (u ++ [a]) = 0 →
        ((matchFrom st (a :: rest) i idx).isSome ↔ a :: rest = [] ∨ 0 < F.cnt (u ++ a :: rest)) ∧
        ∀ r, matchFrom st (a :: rest) i idx = some r →
          ((st.node r.1).count : Int) = F.cnt (u ++ a :: rest) := by
      intro hnone hzero
      have hanti : F.cnt (u ++ a :: rest) ≤ F.cnt (u ++ [a]) := by
        rw [hcons]
        exact F.cnt_anti (prefix_append _ _)
      refine ⟨?_, fun r hr => by simp [hnone] at hr⟩
      simp only [hnone, Option.isSome_none, Bool.false_eq_true, reduceCtorEq, false_or, false_iff]
      omega
    -- otherwise the rest is matched from the next position
    have hlive : ∀ {c v'} idx', P c = some v' → u ++ [a] <+: v' →
        (u ++ [a]).length + (st.node c).length = v'.length + idx' → F.cnt (u ++ [a]) = F.cnt v' →
        matchFrom st (a :: rest) i idx = matchFrom st rest c idx' →
        ((matchFrom st (a :: rest) i idx).isSome ↔ a :: rest = [] ∨ 0 < F.cnt (u ++ a :: rest)) ∧
        ∀ r, matchFrom st (a :: rest) i idx = some r →
          ((st.node r.1).count : Int) = F.cnt (u ++ a :: rest) := by
      intro c v' idx' hc hpre hidx' hcnt' heq
      obtain ⟨h1, h2⟩ := ih c v' (u ++ [a]) idx' hc hpre hidx' hcnt'
      have hpos : 0 < F.cnt (u ++ [a]) := by
        rw [hcnt']
        exact ((h.shape.vertex hc).resolve_left fun hnil => by simp [hnil] at hpre).1
      rw [heq, hcons]
      refine ⟨h1.trans ?_, h2⟩
      constructor
      · rintro (rfl | hrest)
        · exact .inr (by simpa using hpos)
        · exact .inr hrest
      · rintro (hnil | hrest)
        · simp at hnil
        · exact .inr hrest
    by_cases hge : idx ≥ (st.node i).length
    · -- the position is the node itself
      obtain rfl : u = v := huv.eq_of_length (by omega)
      cases hlook : (st.node i).children.lookup a with
      | none =>
        refine hdead ?_ ((h.lookup_eq_none_iff hi).mp hlook)
        simp [matchFrom, hge, hlook]
      | some c =>
        obtain ⟨v', hc, hcov, hcnt'⟩ := h.lookup_eq_some hi hlook
        have hedge := (h.shape.edge hi hc hcov).2.2
        have hlt := hcov.length_lt
        have htoken : st.refToken c 0 = some a := by
          rw [h.refToken_eq (u := u) hc (by omega) (by omega) hcov.ne_nil]
          exact getElem?_of_concat_prefix hcov.le
        refine hlive 1 hc hcov.le ?_ hcnt'.symm ?_
        · simp only [length_append, length_cons, length_nil]
          omega
        · simp [matchFrom, hge, hlook, htoken]
    · -- the position is inside the label
      have hv : v ≠ [] := by
        rintro rfl
        simp only [length_nil] at hidx hlen
        omega
      have hult : u.length < v.length := by omega
      have htoken := h.refToken_eq (u := u) hi hidx (by omega) hv
      have hbranch : ∀ b, ¬ u ++ [b] <+: v → F.cnt (u ++ [b]) = 0 := fun b hb =>
        Family.cnt_eq_zero_of_branch huv hcnt.le hult hb
      by_cases ha : u ++ [a] <+: v
      · have hanti := F.cnt_anti ha
        have hanti' := F.cnt_anti (prefix_append u [a])
        refine hlive (idx + 1) hi ha ?_ (by omega) ?_
        · simp only [length_append, length_cons, length_nil]
          omega
        · simp [matchFrom, hge, htoken, getElem?_of_concat_prefix ha]
      · refine hdead ?_ (hbranch a ha)
        have hne : v[u.length]? ≠ some a := fun hva => ha (concat_prefix_of_getElem? huv hva)
        simp [matchFrom, hge, htoken, hne]

/-- A context matches exactly when it occurs in the family. -/
theorem matchContext_isSome_iff (h : Inv st F C P) (w : List Key) :
    (matchContext st w).isSome ↔ w = [] ∨ 0 < F.cnt w := by
  have hspec := matchFrom_spec h w st.root [] [] 0 h.shape.root_path (prefix_refl _)
    (by simp [h.root_length]) rfl
  simpa [matchContext] using hspec.1

/-- The node that a context reaches carries its count. -/
theorem matchContext_count (h : Inv st F C P) {w : List Key} {r : NodeId × Nat}
    (hr : matchContext st w = some r) : (st.node r.1).count = F.cnt w := by
  have hspec := matchFrom_spec h w st.root [] [] 0 h.shape.root_path (prefix_refl _)
    (by simp [h.root_length]) rfl
  simpa using hspec.2 r hr

end Positions

/-! ## Occurrences -/

/-- Number of positions of a sequence at which `w` occurs. -/
def occurrencesIn (w seq : List Key) : Nat :=
  ((List.range seq.length).filter fun q => w <+: seq.drop q).length

/-- Number of pairs of a live sequence and a position at which `w` occurs. -/
def occurrences (live : Int32Map (List Key)) (w : List Key) : Nat :=
  (live.entries.map fun e => occurrencesIn w e.2).sum

section Occurrences

variable {st : State} {F : Suffixes} {P : Paths} {w : List Key}

/-- The occurrences of `w`, as pairs of a sequence id and a position. -/
def occurrenceList (live : Int32Map (List Key)) (w : List Key) : List Start :=
  live.entries.flatMap fun e =>
    ((List.range e.2.length).filter fun q => w <+: e.2.drop q).map fun q => (e.1, q)

theorem length_occurrenceList (live : Int32Map (List Key)) (w : List Key) :
    (occurrenceList live w).length = occurrences live w := by
  simp [occurrenceList, occurrences, occurrencesIn, length_flatMap]

theorem mem_occurrenceList {live : Int32Map (List Key)} {k : Start} :
    k ∈ occurrenceList live w ↔
      ∃ T, live.lookup k.1 = some T ∧ k.2 < T.length ∧ w <+: T.drop k.2 := by
  have hmem : ∀ T, live.lookup k.1 = some T ↔
      (⟨k.1, T⟩ : Sigma fun _ : Key => List Key) ∈ live.entries := fun T => AList.mem_lookup_iff
  simp only [occurrenceList, mem_flatMap, mem_map, mem_filter, mem_range, decide_eq_true_eq, hmem]
  constructor
  · rintro ⟨⟨t, T⟩, he, q, ⟨hq, hpre⟩, rfl⟩
    exact ⟨T, he, hq, hpre⟩
  · rintro ⟨T, he, hq, hpre⟩
    exact ⟨⟨k.1, T⟩, he, k.2, ⟨hq, hpre⟩, rfl⟩

theorem nodup_occurrenceList (live : Int32Map (List Key)) (w : List Key) :
    (occurrenceList live w).Nodup := by
  rw [occurrenceList, nodup_flatMap]
  constructor
  · rintro ⟨t, T⟩ _
    refine List.Nodup.map (fun q q' heq => (Prod.mk.inj heq).2) ?_
    exact nodup_range.filter _
  · have hkeys : live.entries.Pairwise fun e e' => e.1 ≠ e'.1 :=
      nodupKeys_iff_pairwise.mp live.nodupKeys
    refine hkeys.imp ?_
    rintro ⟨t, T⟩ ⟨t', T'⟩ hne
    rw [Function.onFun, disjoint_left]
    rintro k hk hk'
    obtain ⟨q, -, rfl⟩ := mem_map.mp hk
    obtain ⟨q', -, heq⟩ := mem_map.mp hk'
    exact hne (Prod.mk.inj heq).1.symm

theorem Good.lookup_of_lt (t : Key) {q : Nat} (hq : q < (st.seq t).length) :
    st.seqs.lookup t = some (st.seq t) := by
  unfold State.seq at hq ⊢
  cases hlook : st.seqs.lookup t with
  | none => simp [hlook] at hq
  | some T => rfl

/-- A string of at most `maxDepth` tokens begins an inserted suffix when it begins the suffix. -/
theorem Good.prefix_str_iff (h : Good st F P) (hlen : w.length ≤ st.maxDepth) {k : Start}
    (hk : k ∈ F.keys) : w <+: F.str k ↔ w <+: (st.seq k.1).drop k.2 := by
  rw [h.str k hk]
  constructor
  · intro hpre
    exact hpre.trans (List.take_prefix _ _)
  · intro hpre
    rw [prefix_iff_eq_take] at hpre ⊢
    rw [take_take, min_eq_left hlen]
    exact hpre

/-- The count in the family is the number of occurrences in the live sequences. -/
theorem Good.cnt_eq_occurrences (h : Good st F P) (hlen : w.length ≤ st.maxDepth) :
    F.cnt w = occurrences st.seqs w := by
  have hset : F.keys.filter (fun k => w <+: F.str k) = (occurrenceList st.seqs w).toFinset := by
    ext k
    rw [Finset.mem_filter, mem_toFinset, mem_occurrenceList]
    constructor
    · rintro ⟨hk, hpre⟩
      have hq := (h.keys k).mp hk
      exact ⟨st.seq k.1, Good.lookup_of_lt k.1 hq, hq, (h.prefix_str_iff hlen hk).mp hpre⟩
    · rintro ⟨T, hT, hq, hpre⟩
      have hseq : st.seq k.1 = T := by simp [State.seq, hT]
      have hk : k ∈ F.keys := (h.keys k).mpr (hseq ▸ hq)
      exact ⟨hk, (h.prefix_str_iff hlen hk).mpr (hseq ▸ hpre)⟩
  rw [Family.cnt, hset, toFinset_card_of_nodup (nodup_occurrenceList _ _), length_occurrenceList]

theorem Good.cnt_pos_iff_infix (h : Good st F P) (hw : w ≠ []) (hlen : w.length ≤ st.maxDepth) :
    0 < F.cnt w ↔ ∃ t T, st.seqs.lookup t = some T ∧ w <:+: T := by
  rw [Family.cnt_pos_iff]
  constructor
  · rintro ⟨k, hk, hpre⟩
    have hq := (h.keys k).mp hk
    refine ⟨k.1, st.seq k.1, Good.lookup_of_lt k.1 hq, ?_⟩
    exact ((h.prefix_str_iff hlen hk).mp hpre).isInfix.trans (drop_suffix _ _).isInfix
  · rintro ⟨t, T, hT, u, v, huv⟩
    have hseq : st.seq t = T := by simp [State.seq, hT]
    have hdrop : T.drop u.length = w ++ v := by
      rw [← huv, append_assoc, drop_left]
    have hpos : 0 < w.length := length_pos_iff.mpr hw
    have hk : (t, u.length) ∈ F.keys := by
      rw [h.keys, hseq, ← huv]
      simp only [length_append]
      omega
    refine ⟨_, hk, (h.prefix_str_iff hlen hk).mpr ?_⟩
    rw [hseq, hdrop]
    exact prefix_append _ _

end Occurrences

end ArcticPlatform.SuffixTree
