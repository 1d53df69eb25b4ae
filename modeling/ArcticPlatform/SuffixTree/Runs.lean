import ArcticPlatform.SuffixTree.AppendRun
import ArcticPlatform.SuffixTree.Remove

/-!
# Suffix tree: runs

A sequence of calls acts on the live sequences as on a map from ids to token
lists.  After every run the tree is the tree of those sequences.

Main results:

- Theorem `remove_good`: `remove` takes a tree of the live sequences to
  the tree of the others.
- Theorem `run_good`: the tree after a run is the tree of the sequences that
  the calls leave behind.
-/

namespace ArcticPlatform.SuffixTree

open CompressedTrie StringFamily List

/-! ## Remove -/

section Remove

variable {st st' : State} {F : Suffixes} {C C' : Key → Prop} {P : Paths} {s : Key}

theorem Inv.weaken (h : Inv st F C P) (hC : ∀ t, C' t → C t) : Inv st F C' P := by
  refine ⟨h.shape, h.fresh, h.root_length, fun {i w} hi => ?_, h.strings⟩
  have hnode := h.node hi
  refine ⟨hnode.count, fun hw => ?_, hnode.ends, fun t q ht => hnode.complete t q (hC t ht)⟩
  obtain ⟨⟨q, hq, hpre, hexact⟩, hlive⟩ := hnode.ref hw
  exact ⟨⟨q, hq, hpre, fun hr => hexact (hC _ hr)⟩, hlive⟩

/-- The starts before `k` of the sequence `s` have been removed. -/
structure Removing (st : State) (F : Suffixes) (P : Paths) (s : Key) (k : Nat) (st' : State)
    (F' : Suffixes) (P' : Paths) : Prop where
  store : SameStore st st'
  inv : Inv st' F' (· ≠ s) P'
  keys : ∀ j, j ∈ F'.keys ↔ j ∈ F.keys ∧ ¬ (j.1 = s ∧ j.2 < k)
  str : F'.str = F.str
  frame : ∀ i j, j ∈ F'.keys → P i = some (F.str j) → P' i = some (F.str j)

theorem Removing.dropped {st' : State} {F' : Suffixes} {P' : Paths} {k : Nat} (hgood : Good st F P)
    (hdepth : 1 ≤ st.maxDepth) (h : Removing st F P s k st' F' P') (hk : k < (st.seq s).length) :
    (s, k) ∈ F'.keys ∧ F'.str (s, k) ≠ [] ∧ (∀ j ∈ F'.keys, (F'.str j).length ≤ st'.maxDepth) ∧
      (F'.str (s, k) = (st'.seq s).drop k ∨ ∀ b, F'.cnt (F'.str (s, k) ++ [b]) = 0) := by
  have hmemF : (s, k) ∈ F.keys := (hgood.keys _).mpr hk
  have hmem : (s, k) ∈ F'.keys := (h.keys _).mpr ⟨hmemF, fun hc => lt_irrefl _ hc.2⟩
  have hstr : F'.str (s, k) = ((st.seq s).drop k).take st.maxDepth := by
    rw [h.str]
    exact hgood.str _ hmemF
  have hseq : st'.seq s = st.seq s := congrFun h.store.seq s
  have hD : ∀ j ∈ F'.keys, (F'.str j).length ≤ st'.maxDepth := by
    intro j hj
    rw [h.str, hgood.str j ((h.keys j).mp hj).1, h.store.maxDepth, length_take]
    exact min_le_left _ _
  refine ⟨hmem, fun hnil => ?_, hD, ?_⟩
  · have hlen := congrArg List.length (hstr.symm.trans hnil)
    rw [length_take, length_drop, length_nil] at hlen
    omega
  · rw [hseq]
    by_cases hlen : ((st.seq s).drop k).length ≤ st.maxDepth
    · exact .inl (hstr.trans (take_of_length_le hlen))
    · refine .inr fun b => ?_
      by_contra hne
      obtain ⟨j, hj, hpre⟩ := Family.cnt_pos_iff.mp (pos_of_ne_zero hne)
      have h1 := hpre.length_le
      have h2 := hD j hj
      rw [length_append, hstr, length_take] at h1
      rw [h.store.maxDepth] at h2
      simp only [length_cons, length_nil] at h1
      omega

/-- One more iteration of the loop over the starts. -/
theorem Removing.step {st' : State} {F' : Suffixes} {P' : Paths} {k : Nat} (hgood : Good st F P)
    (hdepth : 1 ≤ st.maxDepth) (h : Removing st F P s k st' F' P') (hk : k < (st.seq s).length)
    (layout : Layout) :
    ∃ F'' P'', Removing st F P s (k + 1) (removeSuffix layout s (st.seq s) st' k) F'' P'' := by
  obtain ⟨hmem, hx, hD, hend⟩ := h.dropped hgood hdepth hk
  obtain ⟨hstore, P'', hinv, hframe⟩ := removeSuffix_spec h.inv hmem hx hD hend layout
  rw [congrFun h.store.seq s] at hstore hinv
  refine ⟨F'.erase (s, k), P'', h.store.trans hstore, hinv, ?_, h.str, ?_⟩
  · intro j
    simp only [Family.erase, Finset.mem_erase, h.keys]
    constructor
    · rintro ⟨hne, hj, hnot⟩
      refine ⟨hj, fun hc => ?_⟩
      by_cases hjk : j.2 = k
      · exact hne (Prod.ext hc.1 hjk)
      · exact hnot ⟨hc.1, by omega⟩
    · rintro ⟨hj, hnot⟩
      refine ⟨?_, hj, fun hc => hnot ⟨hc.1, by omega⟩⟩
      rintro rfl
      exact hnot ⟨rfl, Nat.lt_succ_self k⟩
  · intro i j hj hi
    have hi' := h.frame i j (Finset.mem_of_mem_erase hj) hi
    rw [← h.str] at hi' ⊢
    exact hframe i j hj hi'

theorem removing_range (h : Good st F P) (hdepth : 1 ≤ st.maxDepth) (layout : Layout) :
    ∀ k ≤ (st.seq s).length, ∃ F' P', Removing st F P s k
      ((List.range k).foldl (removeSuffix layout s (st.seq s)) st) F' P' := by
  intro k
  induction k with
  | zero =>
    intro _
    exact ⟨F, P, SameStore.refl st, h.inv.weaken fun _ _ => trivial, fun j => by simp, rfl,
      fun i j _ hi => hi⟩
  | succ k ih =>
    intro hk
    obtain ⟨F', P', hremoving⟩ := ih (by omega)
    rw [range_succ, foldl_append]
    exact hremoving.step h hdepth (by omega) layout

/-- `remove` takes a tree of the live sequences to the tree of the others. -/
theorem remove_good (h : Good st F P) (hdepth : 1 ≤ st.maxDepth) (s : Key) (layout : Layout) :
    (remove layout st s).maxDepth = st.maxDepth ∧ (remove layout st s).seqs = st.seqs.erase s ∧
      ∃ F' P', Good (remove layout st s) F' P' := by
  obtain ⟨F', P', hrem⟩ := removing_range (s := s) h hdepth layout (st.seq s).length le_rfl
  set st₁ := (List.range (st.seq s).length).foldl (removeSuffix layout s (st.seq s)) st with hst₁
  have hresult : remove layout st s =
      { st₁ with seqs := st₁.seqs.erase s, activeNodes := st₁.activeNodes.erase s } := rfl
  have hseqs : (remove layout st s).seqs = st.seqs.erase s := by
    rw [hresult]
    simp only [hrem.store.seqs]
  have hactives : (remove layout st s).activeNodes = st.activeNodes.erase s := by
    rw [hresult]
    simp only [hrem.store.activeNodes]
  have hdepth' : (remove layout st s).maxDepth = st.maxDepth := by
    rw [hresult]
    exact hrem.store.maxDepth
  have hseq_self : (remove layout st s).seq s = [] := by
    simp [State.seq, hseqs]
  have hseq_ne : ∀ {t}, t ≠ s → (remove layout st s).seq t = st.seq t := by
    intro t ht
    simp [State.seq, hseqs, AList.lookup_erase_ne ht]
  have hactive_self : (remove layout st s).active s = [] := by
    simp [State.active, hactives]
  have hactive_ne : ∀ {t}, t ≠ s → (remove layout st s).active t = st.active t := by
    intro t ht
    simp [State.active, hactives, AList.lookup_erase_ne ht]
  -- no start of `s` is left, so nothing can refer to it
  have hne : ∀ {t q}, (t, q) ∈ F'.keys → t ≠ s := by
    rintro t q hmem rfl
    obtain ⟨hF, hnot⟩ := (hrem.keys _).mp hmem
    exact hnot ⟨rfl, (h.keys _).mp hF⟩
  have hkeep : ∀ {t q}, t ≠ s → (t, q) ∈ F.keys → (t, q) ∈ F'.keys :=
    fun ht hmem => (hrem.keys _).mpr ⟨hmem, fun hc => ht hc.1⟩
  refine ⟨hdepth', hseqs, F', P', ?_, ?_, ?_, ?_, ?_, ?_, ?_⟩
  · refine ⟨hrem.inv.shape, hrem.inv.fresh, hrem.inv.root_length, fun {i w} hi => ?_, ?_⟩
    · have hnode : NodeOK st₁.seq F' (· ≠ s) (st₁.node i) w := hrem.inv.node hi
      refine ⟨hnode.count, fun hw => ?_, hnode.ends, ?_⟩
      · obtain ⟨⟨q, hq, hpre, hexact⟩, q', hlive⟩ := hnode.ref hw
        have hr := hne hlive.1
        refine ⟨⟨q, hq, ?_, fun _ => hexact hr⟩, q', hlive⟩
        have hsame := hseq_ne hr
        rw [hrem.store.seq] at hpre
        exact hsame ▸ hpre
      · intro t q _ hmem heq
        exact hnode.complete t q (hne hmem) hmem heq
    · intro k hk
      have hkne := hne (q := k.2) hk
      have := hrem.inv.strings k hk
      rw [hrem.store.seq] at this
      rw [hseq_ne hkne]
      exact this
  · rintro ⟨t, q⟩
    by_cases ht : t = s
    · subst ht
      rw [hseq_self]
      simp only [length_nil, Nat.not_lt_zero, iff_false]
      exact fun hmem => hne hmem rfl
    · rw [hseq_ne ht, hrem.keys, h.keys]
      simp [ht]
  · rintro ⟨t, q⟩ hmem
    have ht := hne hmem
    rw [hrem.str, h.str _ ((hrem.keys _).mp hmem).1, hdepth', hseq_ne ht]
  · intro t
    by_cases ht : t = s
    · subst ht
      simp [hactive_self, hseq_self]
    · rw [hactive_ne ht, hseq_ne ht, hdepth']
      exact h.active_length t
  · intro t
    by_cases ht : t = s
    · subst ht
      simp [hactive_self]
    · rw [hactive_ne ht, hseq_ne ht, ← h.active_path t]
      apply map_congr_left
      intro j hj
      obtain ⟨q, hmem, hstr, hPj⟩ := h.active_start hj
      rw [hPj, ← hstr]
      exact hrem.frame j (t, q) (hkeep ht hmem) (by rw [hPj, hstr])
  · intro t
    rw [hseqs, hactives]
    by_cases ht : t = s
    · subst ht
      simp
    · rw [AList.lookup_erase_ne ht, AList.lookup_erase_ne ht]
      exact h.active_live t
  · intro t
    rw [hseqs]
    by_cases ht : t = s
    · subst ht
      simp
    · rw [AList.lookup_erase_ne ht]
      exact h.seq_ne_nil t

end Remove

/-! ## Runs -/

/-- Effect of a call on the live sequences. -/
def liveStep (live : Int32Map (List Key)) : Op → Int32Map (List Key)
  | .append seqId token => live.insert seqId ((live.lookup seqId).getD [] ++ [token])
  | .extend seqId tokens =>
    tokens.foldl (fun live token => live.insert seqId ((live.lookup seqId).getD [] ++ [token])) live
  | .remove seqId _ => live.erase seqId

/-- The live sequences after a sequence of calls. -/
def live (ops : List Op) : Int32Map (List Key) :=
  ops.foldl liveStep ∅

theorem extend_good {st : State} {F : Suffixes} {P : Paths} (h : Good st F P)
    (hdepth : 1 ≤ st.maxDepth) (s : Key) (tokens : List Key) :
    (extend st s tokens).maxDepth = st.maxDepth ∧
      (extend st s tokens).seqs = liveStep st.seqs (.extend s tokens) ∧
      ∃ F' P', Good (extend st s tokens) F' P' := by
  induction tokens generalizing st F P with
  | nil => exact ⟨rfl, rfl, F, P, h⟩
  | cons a rest ih =>
    obtain ⟨hdepth₁, hseqs₁, F₁, P₁, hgood₁⟩ := append_good h hdepth s a
    obtain ⟨hdepth₂, hseqs₂, hgood₂⟩ := ih hgood₁ (hdepth₁ ▸ hdepth)
    refine ⟨hdepth₂.trans hdepth₁, ?_, hgood₂⟩
    rw [hseqs₁] at hseqs₂
    exact hseqs₂

/-- One call keeps the tree the tree of the live sequences. -/
theorem step_good {st : State} {F : Suffixes} {P : Paths} (h : Good st F P)
    (hdepth : 1 ≤ st.maxDepth) (op : Op) :
    (step st op).maxDepth = st.maxDepth ∧ (step st op).seqs = liveStep st.seqs op ∧
      ∃ F' P', Good (step st op) F' P' := by
  cases op with
  | append s a => exact append_good h hdepth s a
  | extend s tokens => exact extend_good h hdepth s tokens
  | remove s layout => exact remove_good h hdepth s layout

/-- The tree after a run is the tree of the sequences that the calls leave behind. -/
theorem run_good {maxDepth : Nat} (hdepth : 1 ≤ maxDepth) (ops : List Op) :
    (run maxDepth ops).maxDepth = maxDepth ∧ (run maxDepth ops).seqs = live ops ∧
      ∃ F P, Good (run maxDepth ops) F P := by
  induction ops using List.reverseRecOn with
  | nil => exact ⟨rfl, rfl, init_good maxDepth⟩
  | append_singleton ops op ih =>
    obtain ⟨hdepth₁, hseqs₁, F, P, hgood⟩ := ih
    obtain ⟨hdepth₂, hseqs₂, hgood₂⟩ := step_good hgood (hdepth₁.symm ▸ hdepth) op
    simp only [run, live, foldl_append, foldl_cons, foldl_nil]
      at hdepth₁ hseqs₁ hdepth₂ hseqs₂ hgood₂ ⊢
    exact ⟨hdepth₂.trans hdepth₁, hseqs₁ ▸ hseqs₂, hgood₂⟩

end ArcticPlatform.SuffixTree
