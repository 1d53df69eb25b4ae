import ArcticPlatform.SuffixTree.Invariant

/-!
# Suffix tree: append keeps the invariant

Each iteration of the active-node loop extends the string of one suffix by the
new token.  The cases of the source are the ways in which the vertices of the
trie can change: a vertex moves one token down (cases 1a and 2b), is added (1b
and 3b), is dropped (2a), or nothing changes (3a).

Main results:

- Theorem `appendActive_spec`: one iteration keeps the invariant and moves
  the active node to the end of the extended suffix.
-/

namespace ArcticPlatform.SuffixTree

open CompressedTrie StringFamily List Option

/-! ## The cases on the heap -/

section Heap

variable {st : State} (s a : Key) (seqLen : Nat) {d e : Key} {i j c : NodeId}

theorem addChild_nodes (hi : i ≠ st.nextNode) :
    (addChild st s a seqLen i).1.node i = { st.node i with
          children := (st.node i).children.insert a st.nextNode
          endpoints := (st.node i).endpoints.erase s } ∧
      (addChild st s a seqLen i).1.node st.nextNode =
        { count := 1, token := a, length := 1, refSeq := s, refIdx := (seqLen : Int) - 1,
          parent := some i, endpoints := AList.singleton s seqLen } ∧
      ∀ b, b ≠ i → b ≠ st.nextNode → (addChild st s a seqLen i).1.node b = st.node b := by
  refine ⟨?_, ?_, fun b hbi hbx => ?_⟩
  · simp [addChild, State.setNode]
  · simp [addChild, State.setNode, hi.symm]
  · simp [addChild, State.setNode, hbi, hbx]

theorem fuseChild_nodes (hparent : (st.node i).parent = some j) (htoken : (st.node i).token = e)
    (hij : i ≠ j) (hic : i ≠ c) (hjc : j ≠ c) :
    (fuseChild st s a seqLen i c).1.node c = { st.node c with
          count := (st.node c).count + 1, token := e, length := (st.node i).length + 1,
          refSeq := s, refIdx := (seqLen : Int) - ((st.node i).length + 1 : Nat),
          endpoints := (st.node c).endpoints.insert s seqLen, parent := some j } ∧
      (fuseChild st s a seqLen i c).1.node j =
        { st.node j with children := (st.node j).children.insert e c } ∧
      ∀ b, b ≠ i → b ≠ j → b ≠ c → (fuseChild st s a seqLen i c).1.node b = st.node b := by
  refine ⟨?_, ?_, fun b hbi hbj hbc => ?_⟩
  · simp [fuseChild, State.setNode, hparent, htoken, hjc.symm, hic.symm]
  · simp [fuseChild, State.setNode, hparent, htoken, hjc, hij.symm]
  · simp [fuseChild, State.setNode, hparent, hbi, hbj, hbc]

theorem splitChild_nodes (htoken : st.seqAt (st.node c).refSeq ((st.node c).refIdx + 1) = some d)
    (hi : i ≠ st.nextNode) (hc : c ≠ st.nextNode) (hic : i ≠ c) :
    (splitChild st s a seqLen i c).1.node st.nextNode =
        { count := (st.node c).count + 1, token := a, length := 1, refSeq := s,
          refIdx := (seqLen : Int) - 1, parent := some i, children := AList.singleton d c,
          endpoints := AList.singleton s seqLen } ∧ (splitChild st s a seqLen i c).1.node i =
        { st.node i with
          children := (st.node i).children.insert a st.nextNode
          endpoints := (st.node i).endpoints.erase s } ∧ (splitChild st s a seqLen i c).1.node c =
        { st.node c with
          length := (st.node c).length - 1
          refIdx := (st.node c).refIdx + 1
          token := d
          parent := some st.nextNode } ∧ ∀ b, b ≠ i → b ≠ c → b ≠ st.nextNode →
        (splitChild st s a seqLen i c).1.node b = st.node b := by
  refine ⟨?_, ?_, ?_, fun b hbi hbc hbx => ?_⟩
  · simp [splitChild, State.setNode, incrementCount_node, htoken, hc.symm, hi.symm]
  · simp [splitChild, State.setNode, incrementCount_node, hi, hic]
  · simp [splitChild, State.setNode, incrementCount_node, htoken, hc]
  · simp [splitChild, State.setNode, incrementCount_node, hbi, hbc, hbx]

end Heap

/-! ## One active node -/

/-- The iteration of the loop for the suffix of `s` at `start`, whose node is `i`. -/
structure ActivePre (st : State) (F : Suffixes) (P : Paths) (s a : Key) (start seqLen : Nat)
    (i : NodeId) : Prop where
  inv : Inv st F (fun _ => True) P
  mem : (s, start) ∈ F.keys
  path : P i = some (F.str (s, start))
  token : F.str (s, start) ++ [a] <+: (st.seq s).drop start
  seqLen : start + (F.str (s, start)).length + 1 = seqLen
  uniq : ∀ q, (s, q) ∈ F.keys → F.str (s, q) = F.str (s, start) → q = start

/-- The suffix `k` has been extended by `a` and ends at the node `i'`. -/
def ActivePost (st : State) (F : Suffixes) (P : Paths) (k : Start) (a : Key)
    (r : State × NodeId) : Prop :=
  SameStore st r.1 ∧ ∃ P', Inv r.1 (F.extend k a) (fun _ => True) P' ∧
    P' r.2 = some (F.str k ++ [a]) ∧
    ∀ j k', k' ∈ F.keys → k' ≠ k → P j = some (F.str k') → P' j = some (F.str k')

section Active

variable {st : State} {F : Suffixes} {P : Paths} {s a : Key} {start seqLen : Nat}
  {i c : NodeId}

theorem extend_str_self (F : Suffixes) (k : Start) (a : Key) :
    (F.extend k a).str k = F.str k ++ [a] := by
  simp [Family.extend]

theorem extend_str_ne (F : Suffixes) {k j : Start} (a : Key) (hj : j ≠ k) :
    (F.extend k a).str j = F.str j := by
  simp [Family.extend, hj]

namespace ActivePre

section

variable (h : ActivePre st F P s a start seqLen i)
include h

theorem strings :
    ∀ k ∈ (F.extend (s, start) a).keys,
      (F.extend (s, start) a).str k <+: (st.seq k.1).drop k.2 := by
  intro k hk
  by_cases hks : k = (s, start)
  · subst hks
    rw [extend_str_self]
    exact h.token
  · rw [extend_str_ne F a hks]
    exact h.inv.strings k hk

theorem refOK :
    RefOK st.seq (F.extend (s, start) a) (fun _ => True) s seqLen (F.str (s, start) ++ [a]) := by
  refine RefOK.of_start ?_ h.token h.mem ?_
  · have := h.seqLen
    simp only [length_append, length_cons, length_nil]
    omega
  · rw [extend_str_self]

theorem lookup_endpoint :
    (st.node i).endpoints.lookup s = some (start + (F.str (s, start)).length) := by
  have hnode := h.inv.node h.path
  have hsome := hnode.complete s start trivial h.mem rfl
  obtain ⟨e, he⟩ := isSome_iff_exists.mp hsome
  obtain ⟨q, hmem, heq, hq⟩ := hnode.ends s e he
  rw [h.uniq q hmem heq] at hq
  rw [he, hq]

theorem str_ne (hcnt : F.cnt (F.str (s, start)) = F.cnt (F.str (s, start) ++ [a]) + 1) {k : Start}
    (hk : k ∈ F.keys) (hne : k ≠ (s, start)) : F.str k ≠ F.str (s, start) := by
  intro heq
  have hpre := Family.prefix_of_cnt_eq_succ h.mem hcnt hk hne (by rw [heq])
  have := hpre.length_le
  simp [heq] at this

theorem other {j : NodeId} {w : List Key}
    (hj : P j = some w) (hji : j ≠ i) (hw : w ≠ F.str (s, start) ++ [a]) :
    NodeOK st.seq (F.extend (s, start) a) (fun _ => True) (st.node j) w :=
  (h.inv.node hj).extend h.mem (fun heq => hji (h.inv.shape.inj hj (heq ▸ h.path))) hw

/-- The node where the suffix now ends, at a string where `n` was before, or nothing was. -/
theorem arrive {n n' : Node} (hcount : n'.count = (F.cnt (F.str (s, start) ++ [a]) : Int) + 1)
    (href : RefOK st.seq (F.extend (s, start) a) (fun _ => True) n'.refSeq
      (n'.refIdx + n'.length) (F.str (s, start) ++ [a]))
    (hends : n'.endpoints = n.endpoints.insert s seqLen)
    (hold : ∀ t e, t ≠ s → n.endpoints.lookup t = some e → ∃ q, (t, q) ∈ F.keys ∧
      F.str (t, q) = F.str (s, start) ++ [a] ∧ q + (F.str (s, start) ++ [a]).length = e)
    (hcomplete : ∀ t q, t ≠ s → (t, q) ∈ F.keys → F.str (t, q) = F.str (s, start) ++ [a] →
      (n.endpoints.lookup t).isSome) :
    NodeOK st.seq (F.extend (s, start) a) (fun _ => True) n' (F.str (s, start) ++ [a]) := by
  have hne : ∀ {t q}, t ≠ s → (t, q) ≠ (s, start) := fun ht hc => ht (congrArg Prod.fst hc)
  refine ⟨?_, fun _ => href, ?_, ?_⟩
  · rw [hcount, Family.cnt_extend h.mem, if_pos rfl]
    push_cast
    ring
  · intro t e he
    rw [hends] at he
    by_cases ht : t = s
    · subst ht
      rw [AList.lookup_insert, some.injEq] at he
      refine ⟨start, h.mem, extend_str_self F _ a, ?_⟩
      have := h.seqLen
      simp only [length_append, length_cons, length_nil]
      omega
    · rw [AList.lookup_insert_ne ht] at he
      obtain ⟨q, hmem, heq, hq⟩ := hold t e ht he
      exact ⟨q, hmem, (extend_str_ne F a (hne ht)).trans heq, hq⟩
  · intro t q _ hmem heq
    rw [hends]
    by_cases ht : t = s
    · subst ht
      rw [AList.lookup_insert]
      rfl
    · rw [AList.lookup_insert_ne ht]
      rw [extend_str_ne F a (hne ht)] at heq
      exact hcomplete t q ht hmem heq

/-- All children of the old string lie along `a` when its other occurrences continue so. -/
theorem only_child (hcnt : F.cnt (F.str (s, start)) = F.cnt (F.str (s, start) ++ [a]) + 1) {d : Key}
    {u : List Key} (hcov : Cover (Vertex F) (F.str (s, start)) d u) : d = a := by
  obtain ⟨-, hu, hle, -⟩ := cover_vertex_iff.mp hcov
  obtain ⟨k, hk, huk⟩ := Family.cnt_pos_iff.mp hu.1
  have hdk := hle.trans huk
  have hne : k ≠ (s, start) := by
    rintro rfl
    have := hdk.length_le
    simp at this
  have hak := Family.prefix_of_cnt_eq_succ h.mem hcnt hk hne
    ((prefix_append _ [d]).trans hdk)
  have heq := (prefix_of_prefix_length_le hdk hak (by simp)).eq_of_length (by simp)
  simpa using heq

end

theorem not_vertex_of_zero (hzero : F.cnt (F.str (s, start) ++ [a]) = 0) :
    ¬ Vertex F (F.str (s, start) ++ [a]) := by
  rintro (hnil | hnode)
  · simp at hnil
  · have := hnode.1
    omega

theorem not_cover_of_zero {v : List Key} (hzero : F.cnt (F.str (s, start) ++ [a]) = 0) :
    ¬ Cover (Vertex F) (F.str (s, start)) a v := by
  intro hcov
  obtain ⟨-, hv, -, hcnt⟩ := cover_vertex_iff.mp hcov
  have := hv.1
  omega

end ActivePre

section

variable (h : ActivePre st F P s a start seqLen i)
include h

/-- Case 1a. -/
theorem extendLeaf_post (hx : F.str (s, start) ≠ []) (hone : F.cnt (F.str (s, start)) = 1)
    (hzero : F.cnt (F.str (s, start) ++ [a]) = 0) :
    ActivePost st F P (s, start) a (extendLeaf st s i) := by
  have hcnt : F.cnt (F.str (s, start)) = F.cnt (F.str (s, start) ++ [a]) + 1 := by omega
  have hnode := h.inv.node h.path
  have hnew := ActivePre.not_vertex_of_zero hzero
  have hno : ∀ d v, ¬ Cover (Vertex F) (F.str (s, start)) d v := by
    intro d v hcov
    obtain rfl := h.only_child hcnt hcov
    exact ActivePre.not_cover_of_zero hzero hcov
  obtain ⟨j, p, e, -, hp, -, -, -⟩ := h.inv.shape.exists_parent h.path hx
  have hself : (extendLeaf st s i).1.node i = { st.node i with
        length := (st.node i).length + 1
        endpoints := (st.node i).endpoints.insert s seqLen } := by
    have := h.seqLen
    simp only [extendLeaf, State.setNode, Function.update_self, h.lookup_endpoint, getD_some, this]
  have hother : ∀ c, c ≠ i → (extendLeaf st s i).1.node c = st.node c := by
    intro c hc
    simp [extendLeaf, State.setNode, hc]
  refine ⟨⟨rfl, rfl, rfl, rfl⟩, Function.update P i (some (F.str (s, start) ++ [a])), ?_, ?_, ?_⟩
  · refine ⟨?_, ?_, ?_, ?_, h.strings⟩
    · refine h.inv.shape.rename h.path (vertex_extend_move h.mem a hx hcnt) hnew hp
        (fun d u => h.only_child hcnt) ?_ ?_ ?_ ?_
      · rw [hself]
        exact ⟨rfl, rfl, rfl⟩
      · intro b c
        rw [hself]
        refine iff_of_false ?_ ?_
        · intro hc
          obtain ⟨v, -, hcov⟩ := (h.inv.shape.child h.path b c).mp hc
          exact hno b v hcov
        · rintro ⟨v, -, hcov, -⟩
          exact hno a v hcov
      · intro c v _ hcov
        exact absurd hcov (hno a v)
      · intro c v _ hci _
        rw [hother c hci]
        exact SameShape.refl _
    · intro c w hc
      rcases update_path_iff.mp hc with ⟨rfl, -⟩ | ⟨-, hc⟩
      · exact h.inv.fresh h.path
      · exact h.inv.fresh hc
    · have hroot : st.root ≠ i := ne_of_path_ne h.inv.shape.root_path h.path hx.symm
      exact (congrArg Node.length (hother st.root hroot)).trans h.inv.root_length
    · intro c w hc
      rcases update_path_iff.mp hc with ⟨rfl, rfl⟩ | ⟨hci, hc⟩
      · refine h.arrive (n := st.node c) ?_ ?_ (by rw [hself]) ?_ ?_
        · rw [hself]
          simp only [hnode.count]
          omega
        · -- a reference of a node with a single occurrence is to that occurrence
          obtain ⟨⟨q, hq, -, hexact⟩, -⟩ := hnode.ref hx
          obtain ⟨hmem, hpre⟩ := hexact trivial
          have hk : ((st.node c).refSeq, q) = (s, start) := by
            by_contra hne
            have hak := Family.prefix_of_cnt_eq_succ h.mem hcnt hmem hne hpre
            have := Family.cnt_pos_iff.mpr ⟨_, hmem, hak⟩
            omega
          obtain ⟨hr, hqs⟩ := Prod.mk.inj hk
          have hend : (st.node c).refIdx + ((st.node c).length + 1 : Nat) = seqLen := by
            have := h.seqLen
            push_cast
            omega
          have href := h.refOK
          rw [hself]
          simp only
          rw [hr, hend]
          exact href
        · intro t e ht he
          obtain ⟨q, hmem, heq, -⟩ := hnode.ends t e he
          exact absurd heq (h.str_ne hcnt hmem fun hc => ht (congrArg Prod.fst hc))
        · intro t q _ hmem heq
          exact absurd heq (Family.str_ne_of_cnt_eq_zero hzero hmem)
      · rw [hother c hci]
        exact h.other hc hci fun heq => hnew (heq ▸ h.inv.shape.vertex hc)
  · exact update_path_iff.mpr (.inl ⟨rfl, rfl⟩)
  · intro j k' hk' hne hj
    refine update_path_iff.mpr (.inr ⟨?_, hj⟩)
    rintro rfl
    rw [h.path, some.injEq] at hj
    exact h.str_ne hcnt hk' hne hj.symm

/-- Case 1b. -/
theorem addChild_post (hkeep : F.str (s, start) = [] ∨ F.cnt (F.str (s, start)) ≠ 1)
    (hzero : F.cnt (F.str (s, start) ++ [a]) = 0) :
    ActivePost st F P (s, start) a (addChild st s a seqLen i) := by
  have hnode := h.inv.node h.path
  have hnew := ActivePre.not_vertex_of_zero hzero
  have hnext := h.inv.nextNode_path
  have hij : i ≠ st.nextNode := fun heq => by simp [← heq, h.path] at hnext
  obtain ⟨hself, hleaf, hother⟩ := addChild_nodes s a seqLen hij
  have hcj : ∀ {c w}, P c = some w → c ≠ st.nextNode := by
    rintro c w hc rfl
    simp [hnext] at hc
  refine ⟨⟨rfl, rfl, rfl, rfl⟩,
    Function.update P st.nextNode (some (F.str (s, start) ++ [a])), ?_, ?_, ?_⟩
  · refine ⟨?_, ?_, ?_, ?_, h.strings⟩
    · refine h.inv.shape.insert h.path hnext (vertex_extend_keep h.mem a ?_) hnew ?_ ?_ ?_ ?_ ?_
      · rw [hzero]
        exact hkeep
      · rw [hleaf]
        exact ⟨rfl, rfl, rfl⟩
      · intro b c
        rw [hleaf]
        refine iff_of_false (by simp) ?_
        rintro ⟨v, -, hcov, -⟩
        exact ActivePre.not_cover_of_zero hzero hcov
      · rw [hself]
        exact ⟨rfl, rfl, rfl, rfl⟩
      · intro c v _ hcov
        exact absurd hcov (ActivePre.not_cover_of_zero hzero)
      · intro c v hc hci _
        rw [hother c hci (hcj hc)]
        exact SameShape.refl _
    · intro c w hc
      rcases update_path_iff.mp hc with ⟨rfl, -⟩ | ⟨-, hc⟩
      · exact Nat.lt_succ_self _
      · exact Nat.lt_succ_of_lt (h.inv.fresh hc)
    · by_cases hroot : st.root = i
      · have := h.inv.root_length
        show ((addChild st s a seqLen i).1.node st.root).length = 0
        rw [hroot] at this ⊢
        rw [hself]
        exact this
      · exact (congrArg Node.length (hother st.root hroot (hcj h.inv.shape.root_path))).trans
          h.inv.root_length
    · intro c w hc
      rcases update_path_iff.mp hc with ⟨rfl, rfl⟩ | ⟨-, hc⟩
      · refine h.arrive (n := {}) ?_ ?_ ?_ ?_ ?_
        · rw [hleaf, hzero]
          rfl
        · rw [hleaf]
          have href := h.refOK
          simpa using href
        · rw [hleaf]
          rfl
        · intro t e _ he
          simp at he
        · intro t q _ hmem heq
          exact absurd heq (Family.str_ne_of_cnt_eq_zero hzero hmem)
      · by_cases hci : c = i
        · subst hci
          obtain rfl : w = F.str (s, start) := by simpa [h.path] using hc.symm
          rw [hself]
          exact hnode.leave h.mem h.uniq rfl rfl rfl rfl
        · rw [hother c hci (hcj hc)]
          exact h.other hc hci fun heq => hnew (heq ▸ h.inv.shape.vertex hc)
  · exact update_path_iff.mpr (.inl ⟨rfl, rfl⟩)
  · intro j k' _ _ hj
    exact update_path_iff.mpr (.inr ⟨hcj hj, hj⟩)

/-- Case 2a. -/
theorem fuseChild_post (hx : F.str (s, start) ≠ [])
    (hcnt : F.cnt (F.str (s, start)) = F.cnt (F.str (s, start) ++ [a]) + 1)
    (hc : P c = some (F.str (s, start) ++ [a]))
    (hcov : Cover (Vertex F) (F.str (s, start)) a (F.str (s, start) ++ [a])) :
    ActivePost st F P (s, start) a (fuseChild st s a seqLen i c) := by
  have hnode := h.inv.node hc
  obtain ⟨j, p, e, hj, hp, hparent, htoken, -⟩ := h.inv.shape.exists_parent h.path hx
  have hij : i ≠ j := ne_of_path_ne h.path hj hp.ne.symm
  have hic : i ≠ c := ne_of_path_ne h.path hc hcov.ne
  have hjc : j ≠ c := ne_of_path_ne hj hc fun heq => by
    have h1 := hp.length_lt
    have h2 := hcov.length_lt
    rw [heq] at h1
    omega
  obtain ⟨hself, hpar, hother⟩ := fuseChild_nodes s a seqLen hparent htoken hij hic hjc
  have honly : ∀ {d v b}, P b = some v → Cover (Vertex F) (F.str (s, start)) d v → b = c := by
    intro d v b hb hcov'
    obtain rfl := h.only_child hcnt hcov'
    exact (h.inv.cover_unique hc hcov hb hcov').1
  refine ⟨⟨rfl, rfl, rfl, rfl⟩, Function.update P i none, ?_, ?_, ?_⟩
  · refine ⟨?_, ?_, ?_, ?_, h.strings⟩
    · refine h.inv.shape.erase h.path hj ?_ hp ?_ ?_ ?_ ?_
      · intro u
        rw [vertex_extend_move h.mem a hx hcnt]
        constructor
        · rintro (hu | rfl)
          · exact hu
          · exact ⟨hcov.right, hcov.ne.symm⟩
        · exact Or.inl
      · intro b b'
        rw [hpar]
        by_cases hb : b = e
        · subst hb
          simp only [AList.lookup_insert, true_and, ne_eq, not_true, false_and, or_false,
            some.injEq]
          constructor
          · rintro rfl
            exact ⟨a, _, hc, hcov⟩
          · rintro ⟨d, v, hb', hcov'⟩
            exact (honly hb' hcov').symm
        · simp [AList.lookup_insert_ne hb, hb]
      · rw [hpar]
        exact ⟨rfl, rfl, rfl⟩
      · intro b v d hb hcov'
        obtain rfl := honly hb hcov'
        have hlen := (h.inv.shape.edge h.path hc hcov).2.2
        rw [hself]
        refine ⟨rfl, hparent.symm, htoken.symm, ?_⟩
        simp only [length_append, length_cons, length_nil] at hlen
        simp only
        omega
      · intro b v hb hbi hbj hnot
        have hbc : b ≠ c := ne_of_path_ne hb hc fun heq => hnot a (heq ▸ hcov)
        rw [hother b hbi hbj hbc]
        exact SameShape.refl _
    · intro b w hb
      exact h.inv.fresh (drop_path_iff.mp hb).2
    · show ((fuseChild st s a seqLen i c).1.node st.root).length = 0
      have hroot := h.inv.root_length
      have hri : st.root ≠ i := ne_of_path_ne h.inv.shape.root_path h.path hx.symm
      have hrc : st.root ≠ c := ne_of_path_ne h.inv.shape.root_path hc (by simp)
      by_cases hrj : st.root = j
      · rw [hrj] at hroot ⊢
        rw [hpar]
        exact hroot
      · rw [hother _ hri hrj hrc]
        exact hroot
    · intro b w hb
      obtain ⟨hbi, hb⟩ := drop_path_iff.mp hb
      by_cases hbc : b = c
      · subst hbc
        obtain rfl : w = F.str (s, start) ++ [a] := by simpa [hc] using hb.symm
        refine h.arrive (n := st.node b) ?_ ?_ (by rw [hself]) ?_ ?_
        · rw [hself, ← hnode.count]
        · have href := h.refOK
          rw [hself]
          simpa using href
        · intro t e _ he
          exact hnode.ends t e he
        · intro t q _ hmem heq
          exact hnode.complete t q trivial hmem heq
      · have hw : w ≠ F.str (s, start) ++ [a] := by
          rintro rfl
          exact hbc (h.inv.shape.inj hb hc)
        have hold := h.other hb hbi hw
        by_cases hbj : b = j
        · subst hbj
          rw [hpar]
          exact hold.congr rfl rfl rfl rfl
        · rw [hother b hbi hbj hbc]
          exact hold
  · exact drop_path_iff.mpr ⟨hic.symm, hc⟩
  · intro b k' hk' hne' hb
    refine drop_path_iff.mpr ⟨?_, hb⟩
    rintro rfl
    rw [h.path, some.injEq] at hb
    exact h.str_ne hcnt hk' hne' hb.symm

end

variable {v : List Key}

theorem not_vertex_of_concat {V : List Key → Prop} {w : List Key} {d : Key} (hcov : Cover V w a v)
    (hd : w ++ [a] ++ [d] <+: v) : ¬V (w ++ [a]) := by
  intro hV
  have hlen := hd.length_le
  rw [hcov.eq_of_vertex hV] at hlen
  simp at hlen

section

variable (h : ActivePre st F P s a start seqLen i)
include h

theorem ActivePre.child_token (hc : P c = some v)
    (hcov : Cover (Vertex F) (F.str (s, start)) a v) (hlen : (st.node c).length ≠ 1) :
    ∃ d, F.str (s, start) ++ [a] ++ [d] <+: v ∧
      st.seqAt (st.node c).refSeq ((st.node c).refIdx + 1) = some d := by
  have hedge := (h.inv.shape.edge h.path hc hcov).2.2
  have hne : F.str (s, start) ++ [a] ≠ v := by
    intro heq
    have := congrArg List.length heq
    simp only [length_append, length_cons, length_nil] at this
    omega
  obtain ⟨d, hd⟩ := exists_concat_prefix hcov.le hne
  refine ⟨d, hd, ?_⟩
  obtain ⟨⟨q, hq, hpre, -⟩, -⟩ := (h.inv.node hc).ref hcov.ne_nil
  have hdlen := hd.length_le
  simp only [length_append, length_cons, length_nil] at hdlen
  have hidx : (st.node c).refIdx + 1 = (q : Int) + ((F.str (s, start) ++ [a]).length : Nat) := by
    simp only [length_append, length_cons, length_nil]
    push_cast
    omega
  have hlt : (F.str (s, start) ++ [a]).length < v.length := by
    simp only [length_append, length_cons, length_nil]
    omega
  rw [hidx, seqAt_of_prefix hpre hlt]
  exact getElem?_of_concat_prefix hd

/-- Below the extended string there is one node. -/
theorem ActivePre.below {d : Key} (hc : P c = some v)
    (hcov : Cover (Vertex F) (F.str (s, start)) a v)
    (hd : F.str (s, start) ++ [a] ++ [d] <+: v) (b : Key) (b' : NodeId) :
    (∃ u, P b' = some u ∧ Cover (Vertex F) (F.str (s, start)) a u ∧
      F.str (s, start) ++ [a] ++ [b] <+: u) ↔ b = d ∧ b' = c := by
  constructor
  · rintro ⟨u, hb', hcov', hle⟩
    obtain ⟨rfl, rfl⟩ := h.inv.cover_unique hc hcov hb' hcov'
    have heq := (prefix_of_prefix_length_le hle hd (by simp)).eq_of_length (by simp)
    exact ⟨by simpa using heq, rfl⟩
  · rintro ⟨rfl, rfl⟩
    exact ⟨v, hc, hcov, hd⟩

/-- Case 2b. -/
theorem shiftBoundary_post (hx : F.str (s, start) ≠ [])
    (hcnt : F.cnt (F.str (s, start)) = F.cnt (F.str (s, start) ++ [a]) + 1) (hc : P c = some v)
    (hcov : Cover (Vertex F) (F.str (s, start)) a v) (hlen : (st.node c).length ≠ 1) :
    ActivePost st F P (s, start) a (shiftBoundary st s a seqLen i c) := by
  have hnode := h.inv.node h.path
  obtain ⟨d, hd, htoken⟩ := h.child_token hc hcov hlen
  obtain ⟨j, p, e, -, hp, -, -, -⟩ := h.inv.shape.exists_parent h.path hx
  have hic : i ≠ c := ne_of_path_ne h.path hc hcov.ne
  have hedge := (h.inv.shape.edge h.path hc hcov).2.2
  have hvlen := hcov.length_lt
  have hnew : ¬ Vertex F (F.str (s, start) ++ [a]) := not_vertex_of_concat hcov hd
  have hself : (shiftBoundary st s a seqLen i c).1.node i = { st.node i with
        length := (st.node i).length + 1
        endpoints := (st.node i).endpoints.insert s seqLen
        refSeq := s
        refIdx := (seqLen : Int) - ((st.node i).length + 1 : Nat)
        children :=
          if d ≠ a then ((st.node i).children.insert d c).erase a
          else (st.node i).children } := by
    have := h.seqLen
    simp only [shiftBoundary, State.setNode, Function.update_self, h.lookup_endpoint, htoken,
      getD_some, this]
  have hchild : (shiftBoundary st s a seqLen i c).1.node c = { st.node c with
        length := (st.node c).length - 1
        refIdx := (st.node c).refIdx + 1
        token := d } := by
    simp [shiftBoundary, State.setNode, hic.symm, htoken]
  have hother : ∀ b, b ≠ i → b ≠ c → (shiftBoundary st s a seqLen i c).1.node b = st.node b := by
    intro b hbi hbc
    simp [shiftBoundary, State.setNode, hbi, hbc]
  have honly : ∀ {b u}, P b = some u → Cover (Vertex F) (F.str (s, start)) a u →
      b = c ∧ u = v := fun hb hcov' => h.inv.cover_unique hc hcov hb hcov'
  have hlook : ∀ b b', (st.node i).children.lookup b = some b' ↔ b = a ∧ b' = c := by
    intro b b'
    rw [h.inv.shape.child h.path]
    constructor
    · rintro ⟨u, hb', hcov'⟩
      obtain rfl := h.only_child hcnt hcov'
      exact ⟨rfl, (honly hb' hcov').1⟩
    · rintro ⟨rfl, rfl⟩
      exact ⟨v, hc, hcov⟩
  refine ⟨⟨rfl, rfl, rfl, rfl⟩, Function.update P i (some (F.str (s, start) ++ [a])), ?_, ?_, ?_⟩
  · refine ⟨?_, ?_, ?_, ?_, h.strings⟩
    · refine h.inv.shape.rename h.path (vertex_extend_move h.mem a hx hcnt) hnew hp
        (fun d u => h.only_child hcnt) ?_ ?_ ?_ ?_
      · rw [hself]
        exact ⟨rfl, rfl, rfl⟩
      · intro b b'
        rw [h.below hc hcov hd, hself]
        simp only
        by_cases hda : d = a
        · rw [if_neg (by simp [hda]), hlook, hda]
        · rw [if_pos hda]
          by_cases hba : b = a
          · subst hba
            simp [Ne.symm hda]
          · rw [AList.lookup_erase_ne hba]
            by_cases hbd : b = d
            · subst hbd
              simp [eq_comm]
            · rw [AList.lookup_insert_ne hbd, hlook]
              simp [hba, hbd]
      · intro b u hb hcov'
        obtain ⟨rfl, rfl⟩ := honly hb hcov'
        rw [hchild]
        exact ⟨rfl, rfl, hd, by simp only; omega⟩
      · intro b u hb hbi hnot
        have hbc : b ≠ c := ne_of_path_ne hb hc fun heq => hnot (heq ▸ hcov)
        rw [hother b hbi hbc]
        exact SameShape.refl _
    · intro b w hb
      rcases update_path_iff.mp hb with ⟨rfl, -⟩ | ⟨-, hb⟩
      · exact h.inv.fresh h.path
      · exact h.inv.fresh hb
    · have hri : st.root ≠ i := ne_of_path_ne h.inv.shape.root_path h.path hx.symm
      have hrc : st.root ≠ c := ne_of_path_ne h.inv.shape.root_path hc hcov.ne_nil.symm
      exact (congrArg Node.length (hother st.root hri hrc)).trans h.inv.root_length
    · intro b w hb
      rcases update_path_iff.mp hb with ⟨rfl, rfl⟩ | ⟨hbi, hb⟩
      · refine h.arrive (n := st.node b) ?_ ?_ (by rw [hself]) ?_ ?_
        · rw [hself]
          simp only [hnode.count]
          omega
        · have href := h.refOK
          rw [hself]
          simpa using href
        · intro t e ht he
          obtain ⟨q, hmem, heq, -⟩ := hnode.ends t e he
          exact absurd heq (h.str_ne hcnt hmem fun hc => ht (congrArg Prod.fst hc))
        · intro t q _ hmem heq
          exact absurd (.inr (heq ▸ Family.isNode_str hmem)) hnew
      · have hold := h.other hb hbi fun heq => hnew (heq ▸ h.inv.shape.vertex hb)
        by_cases hbc : b = c
        · subst hbc
          rw [hchild]
          refine hold.congr rfl rfl ?_ rfl
          simp only
          omega
        · rw [hother b hbi hbc]
          exact hold
  · exact update_path_iff.mpr (.inl ⟨rfl, rfl⟩)
  · intro b k' hk' hne hb
    refine update_path_iff.mpr (.inr ⟨?_, hb⟩)
    rintro rfl
    rw [h.path, some.injEq] at hb
    exact h.str_ne hcnt hk' hne hb.symm

section

variable (hkeep : F.str (s, start) = [] ∨ F.cnt (F.str (s, start)) ≠ F.cnt (F.str (s, start) ++ [a]) + 1)
include hkeep

/-- Case 3a. -/
theorem enterChild_post (hc : P c = some (F.str (s, start) ++ [a]))
    (hcov : Cover (Vertex F) (F.str (s, start)) a (F.str (s, start) ++ [a])) :
    ActivePost st F P (s, start) a (enterChild st s seqLen i c) := by
  have hnode := h.inv.node hc
  have hic : i ≠ c := ne_of_path_ne h.path hc hcov.ne
  have hself : (enterChild st s seqLen i c).1.node c = { st.node c with
        count := (st.node c).count + 1
        endpoints := (st.node c).endpoints.insert s seqLen } := by
    simp [enterChild, State.setNode, incrementCount_node, hic.symm]
  have hpar : (enterChild st s seqLen i c).1.node i =
      { st.node i with endpoints := (st.node i).endpoints.erase s } := by
    simp [enterChild, State.setNode, incrementCount_node, hic]
  have hother : ∀ b, b ≠ i → b ≠ c → (enterChild st s seqLen i c).1.node b = st.node b := by
    intro b hbi hbc
    simp [enterChild, State.setNode, incrementCount_node, hbi, hbc]
  have hstore : SameStore st (enterChild st s seqLen i c).1 :=
    ⟨(incrementCount_sameStore _ _).maxDepth, (incrementCount_sameStore _ _).root,
      (incrementCount_sameStore _ _).seqs, (incrementCount_sameStore _ _).activeNodes⟩
  have hshape : ∀ b w, P b = some w →
      SameShape (st.node b) ((enterChild st s seqLen i c).1.node b) := by
    intro b w _
    by_cases hbi : b = i
    · subst hbi
      rw [hpar]
      exact ⟨⟨rfl, rfl, rfl⟩, rfl⟩
    · by_cases hbc : b = c
      · subst hbc
        rw [hself]
        exact ⟨⟨rfl, rfl, rfl⟩, rfl⟩
      · rw [hother b hbi hbc]
        exact SameShape.refl _
  refine ⟨hstore, P, ?_, hc, fun b k' _ _ hb => hb⟩
  refine ⟨?_, ?_, ?_, ?_, ?_⟩
  · rw [hstore.root]
    refine h.inv.shape.congr (fun u => ?_) hshape
    rw [vertex_extend_keep h.mem a hkeep]
    constructor
    · rintro (hu | rfl)
      · exact hu
      · exact hcov.right
    · exact Or.inl
  · intro b w hb
    have hnext : (enterChild st s seqLen i c).1.nextNode = st.nextNode :=
      incrementCount_nextNode _ _
    rw [hnext]
    exact h.inv.fresh hb
  · rw [hstore.root, (hshape _ _ h.inv.shape.root_path).length]
    exact h.inv.root_length
  · intro b w hb
    rw [hstore.seq]
    by_cases hbc : b = c
    · subst hbc
      obtain rfl : w = F.str (s, start) ++ [a] := by simpa [hc] using hb.symm
      refine h.arrive (n := st.node b) ?_ ?_ (by rw [hself]) ?_ ?_
      · rw [hself, ← hnode.count]
      · rw [hself]
        exact (hnode.ref hcov.ne_nil).extend
      · intro t e _ he
        exact hnode.ends t e he
      · intro t q _ hmem heq
        exact hnode.complete t q trivial hmem heq
    · by_cases hbi : b = i
      · subst hbi
        obtain rfl : w = F.str (s, start) := by simpa [h.path] using hb.symm
        rw [hpar]
        exact (h.inv.node h.path).leave h.mem h.uniq rfl rfl rfl rfl
      · rw [hother b hbi hbc]
        refine h.other hb hbi ?_
        rintro rfl
        exact hbc (h.inv.shape.inj hb hc)
  · rw [hstore.seq]
    exact h.strings

/-- Case 3b. -/
theorem splitChild_post (hc : P c = some v) (hcov : Cover (Vertex F) (F.str (s, start)) a v)
    (hlen : (st.node c).length ≠ 1) :
    ActivePost st F P (s, start) a (splitChild st s a seqLen i c) := by
  have hnode := h.inv.node h.path
  obtain ⟨d, hd, htoken⟩ := h.child_token hc hcov hlen
  have hnext := h.inv.nextNode_path
  have hic : i ≠ c := ne_of_path_ne h.path hc hcov.ne
  have hcj : ∀ {b w}, P b = some w → b ≠ st.nextNode := by
    rintro b w hb rfl
    simp [hnext] at hb
  have hedge := (h.inv.shape.edge h.path hc hcov).2.2
  have hvlen := hcov.length_lt
  have hnew : ¬ Vertex F (F.str (s, start) ++ [a]) := not_vertex_of_concat hcov hd
  obtain ⟨hself, hpar, hchild, hother⟩ := splitChild_nodes s a seqLen htoken
    (hcj h.path) (hcj hc) hic
  have hstore : SameStore st (splitChild st s a seqLen i c).1 :=
    ⟨(incrementCount_sameStore _ _).maxDepth, (incrementCount_sameStore _ _).root,
      (incrementCount_sameStore _ _).seqs, (incrementCount_sameStore _ _).activeNodes⟩
  have honly : ∀ {b u}, P b = some u → Cover (Vertex F) (F.str (s, start)) a u →
      b = c ∧ u = v := fun hb hcov' => h.inv.cover_unique hc hcov hb hcov'
  refine ⟨hstore, Function.update P st.nextNode (some (F.str (s, start) ++ [a])), ?_, ?_, ?_⟩
  · refine ⟨?_, ?_, ?_, ?_, ?_⟩
    · rw [hstore.root]
      refine h.inv.shape.insert h.path hnext (vertex_extend_keep h.mem a hkeep) hnew ?_ ?_ ?_ ?_ ?_
      · rw [hself]
        exact ⟨rfl, rfl, rfl⟩
      · intro b b'
        rw [hself, lookup_singleton_iff]
        exact (h.below hc hcov hd b b').symm
      · rw [hpar]
        exact ⟨rfl, rfl, rfl, rfl⟩
      · intro b u hb hcov'
        obtain ⟨rfl, rfl⟩ := honly hb hcov'
        rw [hchild]
        exact ⟨rfl, rfl, hd, by simp only; omega⟩
      · intro b u hb hbi hnot
        have hbc : b ≠ c := ne_of_path_ne hb hc fun heq => hnot (heq ▸ hcov)
        rw [hother b hbi hbc (hcj hb)]
        exact SameShape.refl _
    · intro b w hb
      have hnext' : (splitChild st s a seqLen i c).1.nextNode = st.nextNode + 1 :=
        incrementCount_nextNode _ _
      rw [hnext']
      rcases update_path_iff.mp hb with ⟨rfl, -⟩ | ⟨-, hb⟩
      · exact Nat.lt_succ_self _
      · exact Nat.lt_succ_of_lt (h.inv.fresh hb)
    · rw [hstore.root]
      have hroot := h.inv.root_length
      have hrc : st.root ≠ c := ne_of_path_ne h.inv.shape.root_path hc hcov.ne_nil.symm
      by_cases hri : st.root = i
      · rw [hri] at hroot ⊢
        rw [hpar]
        exact hroot
      · rw [hother st.root hri hrc (hcj h.inv.shape.root_path)]
        exact hroot
    · intro b w hb
      rw [hstore.seq]
      rcases update_path_iff.mp hb with ⟨rfl, rfl⟩ | ⟨hbj, hb⟩
      · refine h.arrive (n := {}) ?_ ?_ ?_ ?_ ?_
        · rw [hself, ← (cover_vertex_iff.mp hcov).2.2.2, ← (h.inv.node hc).count]
        · have href := h.refOK
          rw [hself]
          simpa using href
        · rw [hself]
          rfl
        · intro t e _ he
          simp at he
        · intro t q _ hmem heq
          exact absurd (.inr (heq ▸ Family.isNode_str hmem)) hnew
      · by_cases hbi : b = i
        · subst hbi
          obtain rfl : w = F.str (s, start) := by simpa [h.path] using hb.symm
          rw [hpar]
          exact hnode.leave h.mem h.uniq rfl rfl rfl rfl
        · have hold := h.other hb hbi fun heq => hnew (heq ▸ h.inv.shape.vertex hb)
          by_cases hbc : b = c
          · subst hbc
            rw [hchild]
            refine hold.congr rfl rfl ?_ rfl
            simp only
            omega
          · rw [hother b hbi hbc hbj]
            exact hold
    · rw [hstore.seq]
      exact h.strings
  · exact update_path_iff.mpr (.inl ⟨rfl, rfl⟩)
  · intro b k' _ _ hb
    exact update_path_iff.mpr (.inr ⟨hcj hb, hb⟩)

end

/-- One iteration of the loop over the active nodes extends one suffix. -/
theorem appendActive_spec : ActivePost st F P (s, start) a (appendActive st s a seqLen i) := by
  have hnode := h.inv.node h.path
  have hroot := h.inv.shape.ne_root h.path
  unfold appendActive
  cases hlook : (st.node i).children.lookup a with
  | none =>
    have hzero := (h.inv.lookup_eq_none_iff h.path).mp hlook
    simp only
    split_ifs with hcond
    · exact extendLeaf_post h (hroot.mp hcond.2) (by have := hcond.1; have := hnode.count; omega)
        hzero
    · refine addChild_post h ?_ hzero
      by_cases hx : F.str (s, start) = []
      · exact .inl hx
      · refine .inr fun hone => hcond ⟨?_, hroot.mpr hx⟩
        rw [hnode.count, hone]
        rfl
  | some c =>
    obtain ⟨v, hc, hcov, hcnt⟩ := h.inv.lookup_eq_some h.path hlook
    have hedge := (h.inv.shape.edge h.path hc hcov).2.2
    have hcount := (h.inv.node hc).count
    have hvx : (st.node c).length = 1 → v = F.str (s, start) ++ [a] := by
      intro hlen
      refine (hcov.le.eq_of_length ?_).symm
      simp only [length_append, length_cons, length_nil]
      omega
    have hcond_iff : (st.node i).count = (st.node c).count + 1 ↔
        F.cnt (F.str (s, start)) = F.cnt (F.str (s, start) ++ [a]) + 1 := by
      rw [hnode.count, hcount, hcnt]
      norm_cast
    have hkeep : ¬ ((st.node i).count = (st.node c).count + 1 ∧ i ≠ st.root) →
        F.str (s, start) = [] ∨ F.cnt (F.str (s, start)) ≠ F.cnt (F.str (s, start) ++ [a]) + 1 := by
      intro hcond
      by_cases hx : F.str (s, start) = []
      · exact .inl hx
      · exact .inr fun heq => hcond ⟨hcond_iff.mpr heq, hroot.mpr hx⟩
    simp only
    split_ifs with hcond hlen hlen
    · obtain rfl := hvx hlen
      exact fuseChild_post h (hroot.mp hcond.2) (hcond_iff.mp hcond.1) hc hcov
    · exact shiftBoundary_post h (hroot.mp hcond.2) (hcond_iff.mp hcond.1) hc hcov hlen
    · obtain rfl := hvx hlen
      exact enterChild_post h (hkeep hcond) hc hcov
    · exact splitChild_post h (hkeep hcond) hc hcov hlen

end

end Active

end ArcticPlatform.SuffixTree
