import ArcticPlatform.SuffixTree.Matching

/-!
# Suffix tree: correctness of every run

The statements of this module are about the tree that a run leaves behind, as it
can be observed: nodes are those reached from the root through children, and the
string of a node is read off the labels on the way.

Main results:

- Theorem `run_is_count_trie`: the tree is the path-compressed count trie of
  the live sequences, and removal leaves no trace.
- Theorem `run_references_live`: the references, endpoints and active nodes of
  the tree are to live sequences, and every reference is an occurrence of the
  string of its node.
- Theorems `run_canonical` and `run_nodes_linear`: the tree does not depend on the
  history, and its size is linear in the live tokens.
-/

namespace ArcticPlatform.SuffixTree

open CompressedTrie StringFamily List

/-- The label of a node: the tokens behind its reference. -/
def label (st : State) (i : NodeId) : List Key :=
  ((st.seq (st.node i).refSeq).drop (st.node i).refIdx.toNat).take (st.node i).length

/-- The nodes of the tree, each with the concatenation of the labels on its path. -/
inductive PathTo (st : State) : NodeId → List Key → Prop
  | root : PathTo st st.root []
  | child {i c : NodeId} {w : List Key} {b : Key} (hi : PathTo st i w)
      (hc : (st.node i).children.lookup b = some c) : PathTo st c (w ++ label st c)

/-- The number of occurrences that matching a context reports. -/
def matchCount (st : State) (context : List Key) : Option Int :=
  (matchContext st context).map fun r => (st.node r.1).count

section Observed

variable {st st' : State} {F F' : Suffixes} {C C' : Key → Prop} {P P' : Paths}

theorem Inv.label_eq (h : Inv st F C P) {i c : NodeId} {w v : List Key} {b : Key}
    (hi : P i = some w) (hc : P c = some v) (hcov : Cover (Vertex F) w b v) :
    w ++ label st c = v := by
  obtain ⟨⟨q, hq, hpre, -⟩, -⟩ := (h.node hc).ref hcov.ne_nil
  have hedge := (h.shape.edge hi hc hcov).2.2
  have hidx : (st.node c).refIdx.toNat = q + w.length := by omega
  obtain ⟨u, rfl⟩ := hcov.isPrefix
  obtain ⟨z, hz⟩ := hpre
  have hlen : u.length = (st.node c).length := by
    rw [length_append] at hedge
    omega
  have hdrop : (st.seq (st.node c).refSeq).drop (q + w.length) = u ++ z := by
    rw [← drop_drop, ← hz, append_assoc, drop_left]
  rw [label, hidx, hdrop, ← hlen, take_left]

theorem Inv.path_of_pathTo (h : Inv st F C P) {i : NodeId} {w : List Key} (hi : PathTo st i w) :
    P i = some w := by
  induction hi with
  | root => exact h.shape.root_path
  | @child i c w b _ hc ih =>
    obtain ⟨v, hv, hcov⟩ := (h.shape.child ih b c).mp hc
    rw [h.label_eq ih hv hcov]
    exact hv

theorem Inv.pathTo_of_path (h : Inv st F C P) :
    ∀ {w : List Key} {i : NodeId}, P i = some w → PathTo st i w := by
  intro w
  induction hn : w.length using Nat.strong_induction_on generalizing w with
  | _ n ih =>
    intro i hi
    by_cases hw : w = []
    · subst hw
      rw [h.shape.inj hi h.shape.root_path]
      exact PathTo.root
    · obtain ⟨j, p, b, hj, hcov, -, -, -⟩ := h.shape.exists_parent hi hw
      have hlt := hcov.length_lt
      have hpath := ih p.length (by omega) rfl hj
      rw [← h.label_eq hj hi hcov]
      exact PathTo.child hpath (h.shape.child_lookup hj hi hcov)

theorem Inv.matchCount_eq (h : Inv st F C P) (w : List Key) :
    matchCount st w = if w = [] ∨ 0 < F.cnt w then some (F.cnt w : Int) else none := by
  have hsome := matchContext_isSome_iff h w
  unfold matchCount
  cases hr : matchContext st w with
  | none =>
    rw [hr] at hsome
    rw [if_neg fun hc => by simpa using hsome.mpr hc]
    rfl
  | some r =>
    rw [hr] at hsome
    rw [if_pos (hsome.mp rfl)]
    exact congrArg some (matchContext_count h hr)

theorem Good.cnt_congr (h : Good st F P) (h' : Good st' F' P')
    (hdepth : st'.maxDepth = st.maxDepth) (hseq : ∀ t, st'.seq t = st.seq t) (w : List Key) :
    F'.cnt w = F.cnt w := by
  have hkeys : F'.keys = F.keys := by
    ext k
    rw [h.keys, h'.keys, hseq]
  unfold Family.cnt
  rw [hkeys]
  congr 1
  apply Finset.filter_congr
  intro k hk
  rw [h.str k hk, h'.str k (hkeys ▸ hk), hseq, hdepth]

theorem Good.matchCount_congr (h : Good st F P) (h' : Good st' F' P')
    (hdepth : st'.maxDepth = st.maxDepth)
    (hseqs : ∀ t, st'.seqs.lookup t = st.seqs.lookup t) (w : List Key) :
    matchCount st' w = matchCount st w := by
  have hseq : ∀ t, st'.seq t = st.seq t := by
    intro t
    simp [State.seq, hseqs]
  rw [h.inv.matchCount_eq, h'.inv.matchCount_eq, h.cnt_congr h' hdepth hseq]

theorem Inv.child_count_lt (h : Inv st F C P) {i c : NodeId} {w : List Key} {b : Key}
    (hi : P i = some w) (hw : w ≠ []) (hc : (st.node i).children.lookup b = some c) :
    (st.node c).count < (st.node i).count := by
  obtain ⟨v, hv, hcov, hcnt⟩ := h.lookup_eq_some hi hc
  have hnode := ((h.shape.vertex hi).resolve_left hw).2 b
  rw [(h.node hv).count, (h.node hi).count, hcnt]
  exact_mod_cast hnode

end Observed

/-- After every run the tree is the path-compressed count trie of the live sequences. -/
theorem run_is_count_trie (maxDepth : Nat) (hdepth : 1 ≤ maxDepth) (ops : List Op) :
    (run maxDepth ops).seqs = live ops ∧ (∀ w, w ≠ [] → w.length ≤ maxDepth →
      ((matchContext (run maxDepth ops) w).isSome ↔
        ∃ t T, (live ops).lookup t = some T ∧ w <:+: T) ∧
      ∀ r, matchContext (run maxDepth ops) w = some r →
        ((run maxDepth ops).node r.1).count = occurrences (live ops) w) ∧
    (∀ i c b w, PathTo (run maxDepth ops) i w → i ≠ (run maxDepth ops).root →
      ((run maxDepth ops).node i).children.lookup b = some c →
      ((run maxDepth ops).node c).count ≠ ((run maxDepth ops).node i).count) ∧
    ∀ s layout ops', (∀ t, (live ops').lookup t = ((live ops).erase s).lookup t) →
      ∀ w, matchCount (run maxDepth (ops ++ [.remove s layout])) w =
        matchCount (run maxDepth ops') w := by
  obtain ⟨hD, hseqs, F, P, hgood⟩ := run_good hdepth ops
  refine ⟨hseqs, ?_, ?_, ?_⟩
  · intro w hw hlen
    rw [← hD] at hlen
    refine ⟨?_, ?_⟩
    · rw [matchContext_isSome_iff hgood.inv, hgood.cnt_pos_iff_infix hw hlen, hseqs]
      exact ⟨fun h => h.resolve_left hw, Or.inr⟩
    · intro r hr
      rw [matchContext_count hgood.inv hr, hgood.cnt_eq_occurrences hlen, hseqs]
  · intro i c b w hi hroot hc
    have hpath := hgood.inv.path_of_pathTo hi
    exact (hgood.inv.child_count_lt hpath ((hgood.inv.shape.ne_root hpath).mp hroot) hc).ne
  · intro s layout ops' hlive w
    obtain ⟨hD₁, hseqs₁, F₁, P₁, hgood₁⟩ := run_good hdepth (ops ++ [.remove s layout])
    obtain ⟨hD₂, hseqs₂, F₂, P₂, hgood₂⟩ := run_good hdepth ops'
    refine hgood₂.matchCount_congr hgood₁ (hD₁.trans hD₂.symm) (fun t => ?_) w
    rw [hseqs₁, hseqs₂, hlive]
    simp [live, liveStep, foldl_append]

/-- In the tree of `[5, 6, 5]` and `[5]` the context `[5]` matches, with three occurrences. -/
theorem run_is_count_trie_sample :
    let five : Key := ⟨5, by decide⟩
    let six : Key := ⟨6, by decide⟩
    let ops := [Op.extend five [five, six, five], Op.append six five]
    1 ≤ 2 ∧ occurrences (live ops) [five] = 3 ∧ (matchContext (run 2 ops) [five]).isSome := by
  intro five six ops
  refine ⟨by decide, by decide, ?_⟩
  refine (((run_is_count_trie 2 (by decide) ops).2.1 [five] (by simp) (by simp)).1).mpr ?_
  exact ⟨six, [five], by decide, infix_rfl⟩

/-- The root is exempt: after one token it has as many occurrences as its only child. -/
theorem root_child_of_equal_count :
    ¬ ∀ (maxDepth : Nat) (ops : List Op), 1 ≤ maxDepth → ∀ i c b w, PathTo (run maxDepth ops) i w →
      ((run maxDepth ops).node i).children.lookup b = some c →
      ((run maxDepth ops).node c).count ≠ ((run maxDepth ops).node i).count := by
  intro h
  exact h 1 [.append ⟨0, by decide⟩ ⟨5, by decide⟩] le_rfl 0 1 ⟨5, by decide⟩ [] PathTo.root
    (by decide) (by decide)

/-- After every run the references, endpoints and active nodes are to live sequences. -/
theorem run_references_live (maxDepth : Nat) (hdepth : 1 ≤ maxDepth) (ops : List Op) :
    (∀ i w, PathTo (run maxDepth ops) i w → i ≠ (run maxDepth ops).root →
      let n := (run maxDepth ops).node i
      ∃ T, (live ops).lookup n.refSeq = some T ∧ 0 ≤ n.refIdx ∧ n.refIdx + n.length ≤ T.length ∧
        ∃ q : Nat, (q : Int) + w.length = n.refIdx + n.length ∧ w <+: T.drop q) ∧
    (∀ i w t e, PathTo (run maxDepth ops) i w →
      ((run maxDepth ops).node i).endpoints.lookup t = some e → ((live ops).lookup t).isSome) ∧
    (∀ t l, (run maxDepth ops).activeNodes.lookup t = some l →
      ((live ops).lookup t).isSome ∧ ∀ j ∈ l, ∃ w, PathTo (run maxDepth ops) j w) ∧
    ∀ s layout, let st := run maxDepth (ops ++ [.remove s layout])
      (∀ i w, PathTo st i w → i ≠ st.root → (st.node i).refSeq ≠ s) ∧
      (∀ i w, PathTo st i w → (st.node i).endpoints.lookup s = none) ∧
      st.activeNodes.lookup s = none := by
  -- the first two parts for any run, to be used once more after a removal
  have href : ∀ ops, ∀ i w, PathTo (run maxDepth ops) i w → i ≠ (run maxDepth ops).root →
      let n := (run maxDepth ops).node i
      ∃ T, (live ops).lookup n.refSeq = some T ∧ 0 ≤ n.refIdx ∧ n.refIdx + n.length ≤ T.length ∧
        ∃ q : Nat, (q : Int) + w.length = n.refIdx + n.length ∧ w <+: T.drop q := by
    intro ops i w hi hroot
    obtain ⟨-, hseqs, F, P, hgood⟩ := run_good hdepth ops
    have hpath := hgood.inv.path_of_pathTo hi
    have hw := (hgood.inv.shape.ne_root hpath).mp hroot
    obtain ⟨j, p, b, hj, hcov, -, -, hlen⟩ := hgood.inv.shape.exists_parent hpath hw
    obtain ⟨⟨q, hq, hpre, hexact⟩, -⟩ := (hgood.inv.node hpath).ref hw
    have hmem := (hgood.keys _).mp (hexact trivial).1
    have hle := hpre.length_le
    rw [length_drop] at hle
    refine ⟨_, hseqs ▸ Good.lookup_of_lt _ hmem, by omega, ?_, q, hq, hpre⟩
    simp only at hmem
    omega
  have hends : ∀ ops, ∀ i w t e, PathTo (run maxDepth ops) i w →
      ((run maxDepth ops).node i).endpoints.lookup t = some e → ((live ops).lookup t).isSome := by
    intro ops i w t e hi he
    obtain ⟨-, hseqs, F, P, hgood⟩ := run_good hdepth ops
    obtain ⟨q, hmem, -, -⟩ := (hgood.inv.node (hgood.inv.path_of_pathTo hi)).ends t e he
    rw [← hseqs, Good.lookup_of_lt t ((hgood.keys _).mp hmem)]
    rfl
  have hactive : ∀ ops, ∀ t, ((run maxDepth ops).activeNodes.lookup t).isSome ↔
      ((live ops).lookup t).isSome := by
    intro ops t
    obtain ⟨-, hseqs, F, P, hgood⟩ := run_good hdepth ops
    rw [← hseqs]
    exact hgood.active_live t
  refine ⟨href ops, hends ops, ?_, ?_⟩
  · intro t l hl
    refine ⟨(hactive ops t).mp (by rw [hl]; rfl), fun j hj => ?_⟩
    obtain ⟨-, hseqs, F, P, hgood⟩ := run_good hdepth ops
    have hmem : j ∈ (run maxDepth ops).active t := by
      rw [State.active, hl]
      exact hj
    obtain ⟨q, -, -, hPj⟩ := hgood.active_start hmem
    exact ⟨_, hgood.inv.pathTo_of_path hPj⟩
  · intro s layout st
    have hgone : (live (ops ++ [.remove s layout])).lookup s = none := by
      simp [live, liveStep, foldl_append]
    refine ⟨?_, ?_, ?_⟩
    · intro i w hi hroot heq
      obtain ⟨T, hT, -⟩ := href _ i w hi hroot
      have hlook := congrArg (fun t => (live (ops ++ [.remove s layout])).lookup t) heq
      exact absurd (hT.symm.trans (hlook.trans hgone)) (by simp)
    · intro i w hi
      rw [Option.eq_none_iff_forall_ne_some]
      intro e he
      have := hends _ i w s e hi he
      rw [hgone] at this
      simp at this
    · have := (hactive (ops ++ [.remove s layout]) s).mp
      rw [hgone] at this
      simpa using this

/-- After one token the only node below the root refers to the sequence of that token. -/
theorem run_references_live_sample :
    let five : Key := ⟨5, by decide⟩
    let st := run 1 [.append five five]
    1 ≤ 1 ∧ PathTo st 1 [five] ∧ ∃ T, (live [.append five five]).lookup (st.node 1).refSeq = some T := by
  intro five st
  have hpath : PathTo st 1 [five] := PathTo.child (b := five) PathTo.root (by decide)
  obtain ⟨T, hT, -⟩ := (run_references_live 1 le_rfl [.append five five]).1 1 [five] hpath
    (by decide)
  exact ⟨le_rfl, hpath, T, hT⟩

/-! ## What a run leaves -/

/-- The tree depends on the live sequences alone: histories that leave the same ones build trees
with the same nodes, counts and children. -/
theorem run_canonical (maxDepth : Nat) (hdepth : 1 ≤ maxDepth) (ops ops' : List Op)
    (hlive : ∀ t, (live ops').lookup t = (live ops).lookup t) (i : NodeId) (w : List Key)
    (hi : PathTo (run maxDepth ops) i w) :
    ∃ i', PathTo (run maxDepth ops') i' w ∧
      ((run maxDepth ops').node i').count = ((run maxDepth ops).node i).count ∧
      ∀ b c v, ((run maxDepth ops).node i).children.lookup b = some c →
        PathTo (run maxDepth ops) c v →
        ∃ c', ((run maxDepth ops').node i').children.lookup b = some c' ∧
          PathTo (run maxDepth ops') c' v := by
  obtain ⟨hD, hseqs, F, P, hgood⟩ := run_good hdepth ops
  obtain ⟨hD', hseqs', F', P', hgood'⟩ := run_good hdepth ops'
  have hseq : ∀ t, (run maxDepth ops').seq t = (run maxDepth ops).seq t := fun t => by
    simp only [State.seq, hseqs, hseqs', hlive]
  have hcnt := hgood.cnt_congr hgood' (hD'.trans hD.symm) hseq
  have hvertex : ∀ u, Vertex F' u ↔ Vertex F u := fun u => by
    simp only [Vertex, Family.IsNode, hcnt]
  have hpath := hgood.inv.path_of_pathTo hi
  obtain ⟨i', hi'⟩ := hgood'.inv.shape.exists_id ((hvertex w).mpr (hgood.inv.shape.vertex hpath))
  refine ⟨i', hgood'.inv.pathTo_of_path hi', ?_, fun b c v hc hcv => ?_⟩
  · rw [(hgood'.inv.node hi').count, (hgood.inv.node hpath).count, hcnt]
  · obtain ⟨u, hu, hcov⟩ := (hgood.inv.shape.child hpath b c).mp hc
    have hcov' : Cover (Vertex F') w b v := by
      have huv := hu.symm.trans (hgood.inv.path_of_pathTo hcv)
      rwa [Option.some_inj.mp huv, ← funext fun u => propext (hvertex u)] at hcov
    obtain ⟨c', hc'⟩ := hgood'.inv.shape.exists_id hcov'.right
    exact ⟨c', hgood'.inv.shape.child_lookup hi' hc' hcov', hgood'.inv.pathTo_of_path hc'⟩

/-- The node of `[5]` after `extend` and after two calls of `append`. -/
theorem run_canonical_sample :
    let five : Key := ⟨5, by decide⟩
    let six : Key := ⟨6, by decide⟩
    ∃ i, PathTo (run 1 [.append five five, .append five six]) i [five] := by
  intro five six
  have hlabel : label (run 1 [.extend five [five, six]]) 1 = [five] := by decide +kernel
  have hpath : PathTo (run 1 [.extend five [five, six]]) 1 ([] ++ label _ 1) :=
    PathTo.child (b := five) PathTo.root (by decide +kernel)
  rw [hlabel, nil_append] at hpath
  obtain ⟨i, hi, -⟩ := run_canonical 1 le_rfl [.extend five [five, six]]
    [.append five five, .append five six] (fun _ => rfl) 1 [five] hpath
  exact ⟨i, hi⟩

/-- The number of live tokens. -/
def liveTokens (live : Int32Map (List Key)) : Nat :=
  (live.entries.map fun e => e.2.length).sum

/-- The tree has at most two nodes for each live token, and the root, whatever the depth. -/
theorem run_nodes_linear (maxDepth : Nat) (hdepth : 1 ≤ maxDepth) (ops : List Op)
    (nodes : List NodeId) (hnodup : nodes.Nodup)
    (hreach : ∀ i ∈ nodes, ∃ w, PathTo (run maxDepth ops) i w) :
    nodes.length ≤ 2 * liveTokens (live ops) + 1 := by
  obtain ⟨-, hseqs, F, P, hgood⟩ := run_good hdepth ops
  have hcard : F.keys.card = liveTokens (live ops) := by
    rw [← Family.cnt_nil, hgood.cnt_eq_occurrences zero_le, hseqs]
    simp [occurrences, occurrencesIn, liveTokens]
  have hpath : ∀ i ∈ nodes, ∃ w, P i = some w := fun i hi =>
    (hreach i hi).imp fun _ => hgood.inv.path_of_pathTo
  have hsome : ∀ i ∈ nodes, P i = some ((P i).getD []) := fun i hi => by
    obtain ⟨w, hw⟩ := hpath i hi
    simp [hw]
  -- distinct nodes have distinct strings, and these are branching points except at the root
  have hinj : (nodes.map fun i => (P i).getD []).Nodup := by
    refine hnodup.map_on fun i hi j hj heq => hgood.inv.shape.inj (hsome i hi) ?_
    rw [hsome j hj, heq]
  have hle := Family.card_isNode_le F ((nodes.map fun i => (P i).getD []).toFinset.erase [])
    (fun w hw => by
      obtain ⟨hne, hw⟩ := Finset.mem_erase.mp hw
      obtain ⟨i, hi, rfl⟩ := mem_map.mp (mem_toFinset.mp hw)
      exact (hgood.inv.shape.vertex (hsome i hi)).resolve_left hne)
  have hcount := toFinset_card_of_nodup hinj
  have herase := Finset.pred_card_le_card_erase (a := ([] : List Key))
    (s := (nodes.map fun i => (P i).getD []).toFinset)
  rw [length_map] at hcount
  omega

/-- The root and the node of the only token. -/
theorem run_nodes_linear_sample :
    let five : Key := ⟨5, by decide⟩
    [0, 1].length ≤ 2 * liveTokens (live [.append five five]) + 1 := by
  intro five
  refine run_nodes_linear 1 le_rfl [.append five five] [0, 1] (by decide) fun i hi => ?_
  rcases mem_pair.mp hi with rfl | rfl
  · exact ⟨[], PathTo.root⟩
  · exact ⟨_, PathTo.child (b := five) PathTo.root (by decide)⟩

end ArcticPlatform.SuffixTree
