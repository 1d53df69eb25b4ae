import ArcticPlatform.SuffixTree.Invariant

/-!
# Suffix tree: the stored sequences

`append` and `remove` change the stored sequences in one place each; the
walks over the nodes leave them alone.

Main results:

- Theorem `extend_seqs`: `extend` appends to one sequence.
- Theorem `remove_seqs`: `remove` drops one sequence.
-/

namespace ArcticPlatform.SuffixTree

variable (st : State)

theorem appendActive_sameStore (s a : Key) (n : Nat) (i : NodeId) :
    SameStore st (appendActive st s a n i).1 := by
  unfold appendActive
  split
  · split_ifs
    · exact ⟨rfl, rfl, rfl, rfl⟩
    · exact ⟨rfl, rfl, rfl, rfl⟩
  · split_ifs
    · exact ⟨rfl, rfl, rfl, rfl⟩
    · exact ⟨rfl, rfl, rfl, rfl⟩
    · apply SameStore.trans _ (incrementCount_sameStore _ _)
      exact ⟨rfl, rfl, rfl, rfl⟩
    · apply SameStore.trans _ (incrementCount_sameStore _ _)
      exact ⟨rfl, rfl, rfl, rfl⟩

theorem appendLoop_sameStore (s a : Key) (n : Nat) (active : List NodeId) (st : State) :
    SameStore st (appendLoop s a n st active).1 := by
  induction active generalizing st with
  | nil => exact SameStore.refl st
  | cons i rest ih => exact (appendActive_sameStore st s a n i).trans (ih _)

theorem append_seqs (s a : Key) : (append st s a).seqs = st.seqs.insert s (st.seq s ++ [a]) :=
  (appendLoop_sameStore s a _ _ _).seqs

/-- `extend` appends to one sequence. -/
theorem extend_seqs (s : Key) (tokens : List Key) :
    (extend st s tokens).seqs.lookup s =
        (if tokens = [] then st.seqs.lookup s else some (st.seq s ++ tokens)) ∧
      ∀ t, t ≠ s → (extend st s tokens).seqs.lookup t = st.seqs.lookup t := by
  induction tokens using List.reverseRecOn with
  | nil => exact ⟨rfl, fun _ _ => rfl⟩
  | append_singleton tokens a ih =>
    have hstep : extend st s (tokens ++ [a]) = append (extend st s tokens) s a := by
      simp [extend]
    have hseq : (extend st s tokens).seq s = st.seq s ++ tokens := by
      rw [State.seq, ih.1]
      by_cases hnil : tokens = []
      · simp [hnil, State.seq]
      · simp [hnil]
    rw [hstep, append_seqs]
    constructor
    · rw [AList.lookup_insert, hseq, List.append_assoc, if_neg (by simp)]
    · intro t ht
      rw [AList.lookup_insert_ne ht]
      exact ih.2 t ht

theorem removeWalk_sameStore (s : Key) (seq : List Key) (fuel : Nat) (st : State) (i : NodeId)
    (idx : Nat) (path : List NodeId) : SameStore st (removeWalk s seq fuel st i idx path).st := by
  induction fuel generalizing st i idx path with
  | zero => exact SameStore.refl st
  | succ fuel ih =>
    unfold removeWalk
    split
    · exact SameStore.refl st
    · split
      · exact SameStore.refl st
      · split_ifs
        · rename_i child _ _
          have hstore := decrementCount_sameStore st child
          apply SameStore.trans _ (ih _ _ _ _)
          exact ⟨hstore.maxDepth, hstore.root, hstore.seqs, hstore.activeNodes⟩
        · exact ⟨rfl, rfl, rfl, rfl⟩

theorem removeMerge_sameStore (w : Walk) : SameStore w.st (removeMerge w).st := by
  unfold removeMerge
  dsimp only
  split
  · split_ifs
    · exact ⟨rfl, rfl, rfl, rfl⟩
    · exact SameStore.refl _
  · exact SameStore.refl _

theorem repairRefs_sameStore (s refSeq : Key) (l : List NodeId) (refIdx : Int) (st : State) :
    SameStore st (repairRefs s refSeq l refIdx st) := by
  induction l generalizing refIdx st with
  | nil => exact SameStore.refl st
  | cons i rest ih =>
    apply SameStore.trans _ (ih _ _)
    split_ifs
    · exact ⟨rfl, rfl, rfl, rfl⟩
    · exact SameStore.refl st

variable (layout : Layout)

theorem removeSuffix_sameStore (s : Key) (seq : List Key) (st : State) (start : Nat) :
    SameStore st (removeSuffix layout s seq st start) := by
  have hwalk : SameStore st (removeMerge (removeWalk s seq (seq.length - start)
      (st.setNode st.root { st.node st.root with count := (st.node st.root).count - 1 }) st.root
      start [])).st := by
    apply SameStore.trans _ (removeMerge_sameStore _)
    apply SameStore.trans _ (removeWalk_sameStore _ _ _ _ _ _ _)
    exact ⟨rfl, rfl, rfl, rfl⟩
  unfold removeSuffix
  dsimp only
  split
  · exact hwalk
  · split
    · exact hwalk
    · exact hwalk.trans (repairRefs_sameStore _ _ _ _ _)

theorem removeSuffixes_sameStore (s : Key) (seq : List Key) (starts : List Nat) (st : State) :
    SameStore st (starts.foldl (removeSuffix layout s seq) st) := by
  induction starts generalizing st with
  | nil => exact SameStore.refl st
  | cons k starts ih => exact (removeSuffix_sameStore layout s seq st k).trans (ih _)

/-- `remove` drops one sequence. -/
theorem remove_seqs (st : State) (s : Key) : (remove layout st s).seqs = st.seqs.erase s :=
  congrArg (AList.erase s) (removeSuffixes_sameStore layout s _ _ st).seqs

theorem remove_activeNodes (st : State) (s : Key) :
    (remove layout st s).activeNodes = st.activeNodes.erase s :=
  congrArg (AList.erase s) (removeSuffixes_sameStore layout s _ _ st).activeNodes

theorem remove_maxDepth (st : State) (s : Key) : (remove layout st s).maxDepth = st.maxDepth :=
  (removeSuffixes_sameStore layout s _ _ st).maxDepth

end ArcticPlatform.SuffixTree
