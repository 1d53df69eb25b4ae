import ArcticPlatform.SuffixTree.Shape

/-!
# Suffix tree: the invariant

The tree is described by a family of strings, one for every start of every
sequence: the string of `(t, q)` is the part of the suffix of `t` at
`q` that has been inserted so far.  `Inv` says that the heap is the
path-compressed count trie of that family and that counts, references and
endpoints are those of the family.

While a sequence is being removed its references and endpoints are only partly
kept up; the predicate `C` selects the sequences for which they are exact.

Main results:

- Theorems `NodeOK.extend` and `NodeOK.leave`: how the description of a
  node follows the growth of one string.
- Theorem `Inv.lookup_eq_none_iff`: the children of a node are the tokens
  that continue its string.
-/

namespace ArcticPlatform.SuffixTree

open CompressedTrie StringFamily

/-- A suffix: the id of its sequence and the position where it starts. -/
abbrev Start := Key × Nat

/-- The inserted part of every suffix. -/
abbrev Suffixes := Family Start Key

/-- The reference of the node `w` to the tokens of `r` that end at `endIdx`. -/
structure RefOK (seq : Key → List Key) (F : Suffixes) (C : Key → Prop) (r : Key) (endIdx : Int)
    (w : List Key) : Prop where
  exact_start : ∃ q : Nat, (q : Int) + w.length = endIdx ∧ w <+: (seq r).drop q ∧
    (C r → (r, q) ∈ F.keys ∧ w <+: F.str (r, q))
  live : ∃ q, (r, q) ∈ F.keys ∧ w <+: F.str (r, q)

/-- The count and the endpoints of a node are those of its string in `F`, and its reference is
one of `R`. -/
structure NodeAt (seq : Key → List Key) (R F : Suffixes) (C : Key → Prop) (n : Node)
    (w : List Key) : Prop where
  count : n.count = F.cnt w
  ref : w ≠ [] → RefOK seq R C n.refSeq (n.refIdx + n.length) w
  ends : ∀ t e, n.endpoints.lookup t = some e →
    ∃ q, (t, q) ∈ F.keys ∧ F.str (t, q) = w ∧ q + w.length = e
  complete : ∀ t q, C t → (t, q) ∈ F.keys → F.str (t, q) = w → (n.endpoints.lookup t).isSome

/-- The count, the reference and the endpoints of a node are those of its string. -/
abbrev NodeOK (seq : Key → List Key) (F : Suffixes) (C : Key → Prop) (n : Node)
    (w : List Key) : Prop := NodeAt seq F F C n w

/-- The heap is the path-compressed count trie of the family `F`. -/
structure Inv (st : State) (F : Suffixes) (C : Key → Prop) (P : Paths) : Prop where
  shape : Shape st.root st.node (Vertex F) P
  fresh : ∀ {i w}, P i = some w → i < st.nextNode
  root_length : (st.node st.root).length = 0
  node : ∀ {i w}, P i = some w → NodeOK st.seq F C (st.node i) w
  strings : ∀ k ∈ F.keys, F.str k <+: (st.seq k.1).drop k.2

/-- The two states agree on everything but the heap of nodes. -/
structure SameStore (st st' : State) : Prop where
  maxDepth : st'.maxDepth = st.maxDepth
  root : st'.root = st.root
  seqs : st'.seqs = st.seqs
  activeNodes : st'.activeNodes = st.activeNodes

namespace SameStore

variable {st st' st'' : State}

theorem refl (st : State) : SameStore st st := ⟨rfl, rfl, rfl, rfl⟩

theorem trans (h : SameStore st st') (h' : SameStore st' st'') : SameStore st st'' :=
  ⟨h'.maxDepth.trans h.maxDepth, h'.root.trans h.root, h'.seqs.trans h.seqs,
    h'.activeNodes.trans h.activeNodes⟩

theorem seq (h : SameStore st st') : st'.seq = st.seq := by
  funext t
  simp only [State.seq, h.seqs]

end SameStore

/-! ## Maps with one entry -/

theorem lookup_singleton_iff {β : Type} {d b : Key} {c c' : β} :
    (AList.singleton d c : Int32Map β).lookup b = some c' ↔ b = d ∧ c' = c := by
  rw [← AList.insert_empty]
  by_cases hb : b = d
  · subst hb
    rw [AList.lookup_insert]
    simp [eq_comm]
  · rw [AList.lookup_insert_ne hb]
    simp [hb]

/-! ## Counts -/

variable (st : State)

theorem incrementCount_node (i : NodeId) :
    (incrementCount st i).node =
      Function.update st.node i { st.node i with count := (st.node i).count + 1 } := by
  simp only [incrementCount]
  split <;> rfl

theorem incrementCount_nextNode (i : NodeId) : (incrementCount st i).nextNode = st.nextNode := by
  simp only [incrementCount]
  split <;> rfl

theorem incrementCount_sameStore (i : NodeId) : SameStore st (incrementCount st i) := by
  simp only [incrementCount]
  split <;> exact ⟨rfl, rfl, rfl, rfl⟩

theorem decrementCount_node (i : NodeId) :
    (decrementCount st i).node =
      Function.update st.node i { st.node i with count := (st.node i).count - 1 } := by
  simp only [decrementCount]
  split <;> rfl

theorem decrementCount_nextNode (i : NodeId) : (decrementCount st i).nextNode = st.nextNode := by
  simp only [decrementCount]
  split <;> rfl

theorem decrementCount_sameStore (i : NodeId) : SameStore st (decrementCount st i) := by
  simp only [decrementCount]
  split <;> exact ⟨rfl, rfl, rfl, rfl⟩

/-! ## Tokens of a reference -/

section Tokens

variable {st : State} {r : Key} {q m : Nat} {w : List Key}

theorem seqAt_of_prefix (h : w <+: (st.seq r).drop q) (hm : m < w.length) :
    st.seqAt r ((q : Int) + m) = w[m]? := by
  have hget : w[m]? = ((st.seq r).drop q)[m]? := by
    obtain ⟨u, hu⟩ := h
    rw [← hu, List.getElem?_append_left hm]
  have hcast : ((q : Int) + m).toNat = q + m := by omega
  rw [hget, List.getElem?_drop, State.seqAt, if_pos (by omega), hcast]

theorem getElem?_of_concat_prefix {x : List Key} {b : Key} (h : x ++ [b] <+: w) :
    w[x.length]? = some b := by
  obtain ⟨u, hu⟩ := h
  rw [← hu]
  simp

theorem concat_prefix_of_getElem? {x : List Key} {b : Key} (h : x <+: w)
    (hb : w[x.length]? = some b) : x ++ [b] <+: w := by
  obtain ⟨u, rfl⟩ := h
  cases u with
  | nil => simp at hb
  | cons c u =>
    have hc : c = b := by simpa using hb
    exact ⟨u, by simp [hc]⟩

end Tokens

/-! ## Nodes under a change of the family -/

section Changes

variable {seq seq' : Key → List Key} {F : Suffixes} {C : Key → Prop} {n n' : Node}
  {w : List Key} {r : Key} {endIdx : Int} {k : Start} {a : Key}

theorem RefOK.of_start {q : Nat} (hend : (q : Int) + w.length = endIdx)
    (hseq : w <+: (seq r).drop q) (hmem : (r, q) ∈ F.keys) (hpre : w <+: F.str (r, q)) :
    RefOK seq F C r endIdx w := ⟨⟨q, hend, hseq, fun _ => ⟨hmem, hpre⟩⟩, q, hmem, hpre⟩

theorem RefOK.mono {F' : Suffixes} (h : RefOK seq F C r endIdx w) (hseq : ∀ t, seq t <+: seq' t)
    (hstr : ∀ q, (r, q) ∈ F.keys → w <+: F.str (r, q) →
      (r, q) ∈ F'.keys ∧ w <+: F'.str (r, q)) : RefOK seq' F' C r endIdx w := by
  obtain ⟨⟨q, hend, hpre, hexact⟩, q', hmem, hlive⟩ := h
  refine ⟨⟨q, hend, ?_, fun hC => ?_⟩, q', hstr q' hmem hlive⟩
  · obtain ⟨u, hu⟩ := hseq r
    rw [← hu, List.drop_append]
    exact hpre.trans (List.prefix_append _ _)
  · exact hstr q (hexact hC).1 (hexact hC).2

theorem NodeAt.congr {R : Suffixes} (h : NodeAt seq R F C n w) (hcount : n'.count = n.count)
    (hseq : n'.refSeq = n.refSeq) (hend : n'.refIdx + n'.length = n.refIdx + n.length)
    (hends : n'.endpoints = n.endpoints) : NodeAt seq R F C n' w := by
  refine ⟨hcount.trans h.count, ?_, ?_, ?_⟩
  · intro hw
    rw [hseq, hend]
    exact h.ref hw
  · rw [hends]
    exact h.ends
  · rw [hends]
    exact h.complete

theorem str_prefix_extend (F : Suffixes) (k : Start) (a : Key) (j : Start) :
    F.str j <+: (F.extend k a).str j := by
  by_cases hj : j = k
  · subst hj
    simp [Family.extend]
  · simp [Family.extend, hj]

/-- References survive the growth of one string. -/
theorem RefOK.extend (h : RefOK seq F C r endIdx w) : RefOK seq (F.extend k a) C r endIdx w :=
  h.mono (fun _ => List.prefix_refl _)
    fun q hmem hpre => ⟨hmem, hpre.trans (str_prefix_extend F k a (r, q))⟩

/-- A node away from the growing string keeps its description. -/
theorem NodeOK.extend (h : NodeOK seq F C n w) (hk : k ∈ F.keys) (hold : w ≠ F.str k)
    (hnew : w ≠ F.str k ++ [a]) : NodeOK seq (F.extend k a) C n w := by
  have hstr : ∀ j, (F.extend k a).str j = w ↔ F.str j = w := by
    intro j
    by_cases hj : j = k
    · subst hj
      simp only [Family.extend, Function.update_self]
      exact ⟨fun hc => absurd hc.symm hnew, fun hc => absurd hc.symm hold⟩
    · simp [Family.extend, hj]
  refine ⟨?_, fun hw => (h.ref hw).extend, ?_, ?_⟩
  · rw [h.count, Family.cnt_extend hk, if_neg hnew, add_zero]
  · intro t e he
    obtain ⟨q, hmem, heq, hend⟩ := h.ends t e he
    exact ⟨q, hmem, (hstr _).mpr heq, hend⟩
  · intro t q hC hmem heq
    exact h.complete t q hC hmem ((hstr _).mp heq)

/-- The node of the old string, after the endpoint of the growing suffix is taken out. -/
theorem NodeOK.leave (h : NodeOK seq F C n (F.str k)) (hk : k ∈ F.keys)
    (huniq : ∀ q, (k.1, q) ∈ F.keys → F.str (k.1, q) = F.str k → q = k.2)
    (hcount : n'.count = n.count) (hseq : n'.refSeq = n.refSeq)
    (hend : n'.refIdx + n'.length = n.refIdx + n.length)
    (hends : n'.endpoints = n.endpoints.erase k.1) :
    NodeOK seq (F.extend k a) C n' (F.str k) := by
  have hne : F.str k ≠ F.str k ++ [a] := by simp
  have hstr : ∀ j, j ≠ k → (F.extend k a).str j = F.str j := by
    intro j hj
    simp [Family.extend, hj]
  refine ⟨?_, fun hw => ?_, ?_, ?_⟩
  · rw [hcount, h.count, Family.cnt_extend hk, if_neg hne, add_zero]
  · rw [hseq, hend]
    exact (h.ref hw).extend
  · intro t e he
    have ht : t ≠ k.1 := by
      rintro rfl
      simp [hends] at he
    rw [hends, AList.lookup_erase_ne ht] at he
    obtain ⟨q, hmem, heq, hq⟩ := h.ends t e he
    exact ⟨q, hmem, (hstr _ fun hc => ht (congrArg Prod.fst hc)).trans heq, hq⟩
  · intro t q hC hmem heq
    have htq : (t, q) ≠ k := by
      rintro rfl
      simp [Family.extend] at heq
    rw [hstr _ htq] at heq
    have ht : t ≠ k.1 := by
      rintro rfl
      exact htq (Prod.ext rfl (huniq q hmem heq))
    rw [hends, AList.lookup_erase_ne ht]
    exact h.complete t q hC hmem heq

end Changes

/-! ## Children -/

namespace Inv

variable {st : State} {F : Suffixes} {C : Key → Prop} {P : Paths} {i c : NodeId}
  {w : List Key} {a : Key}

/-- A node has no child along the tokens that continue none of its occurrences. -/
theorem lookup_eq_none_iff (h : Inv st F C P) (hi : P i = some w) :
    (st.node i).children.lookup a = none ↔ F.cnt (w ++ [a]) = 0 := by
  have hchild := h.shape.child hi a
  have hcover := exists_cover_vertex_iff (a := a) (h.shape.vertex hi)
  rw [Option.eq_none_iff_forall_ne_some]
  constructor
  · intro hnone
    by_contra hne
    obtain ⟨v, hcov⟩ := hcover.mpr (pos_of_ne_zero hne)
    obtain ⟨c, hc⟩ := h.shape.exists_id hcov.right
    exact hnone c ((hchild c).mpr ⟨v, hc, hcov⟩)
  · intro hzero c hc
    obtain ⟨v, -, hcov⟩ := (hchild c).mp hc
    have := hcover.mp ⟨v, hcov⟩
    omega

theorem lookup_eq_some (h : Inv st F C P) (hi : P i = some w)
    (hc : (st.node i).children.lookup a = some c) :
    ∃ v, P c = some v ∧ Cover (Vertex F) w a v ∧ F.cnt v = F.cnt (w ++ [a]) := by
  obtain ⟨v, hv, hcov⟩ := (h.shape.child hi a c).mp hc
  exact ⟨v, hv, hcov, (cover_vertex_iff.mp hcov).2.2.2⟩

theorem nextNode_path (h : Inv st F C P) : P st.nextNode = none := by
  cases hP : P st.nextNode with
  | none => rfl
  | some w => exact absurd (h.fresh hP) (lt_irrefl _)

theorem cover_unique (h : Inv st F C P) {v v' : List Key} (hc : P c = some v)
    (hcov : Cover (Vertex F) w a v) {c' : NodeId} (hc' : P c' = some v')
    (hcov' : Cover (Vertex F) w a v') : c' = c ∧ v' = v := by
  have hv := hcov'.unique_child hcov
  exact ⟨h.shape.inj hc' (hv ▸ hc), hv⟩

end Inv

end ArcticPlatform.SuffixTree
