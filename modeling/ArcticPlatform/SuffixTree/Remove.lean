import ArcticPlatform.SuffixTree.RemovePath

/-!
# Suffix tree: remove keeps the invariant

The iteration of `remove` for the start `k` of the sequence `s`
drops one key of the family.  The walk takes one off the counts of the prefixes
of the dropped string and removes its leaf when nothing else ends there; the
merge removes the last vertex on the way when it stopped branching.

A reference of a visited node may still be to `s` after its repair was
skipped.  It is then justified by a later start of `s` through the same
node, which is what `RefOK.live` records.

Main results:

- Theorem `removeWalk_spec`: the counts and endpoints after the walk are
  those of the family without the key.
- Theorem `removeMerge_spec`: after the merge so are the vertices.
- Theorem `removeSuffix_spec`: after the repair so are the references.
-/

namespace ArcticPlatform.SuffixTree

open CompressedTrie StringFamily List Option

/-! ## Nodes when a key is dropped -/

section Nodes

variable {seq : Key → List Key} {F : Suffixes} {s : Key} {k : Nat} {n n' : Node}
  {w : List Key} {r : Key} {endIdx : Int}

variable {C : Key → Prop}

theorem RefOK.erase {j : Start} (h : RefOK seq F C r endIdx w)
    (hne : ∀ q, w <+: F.str (r, q) → (r, q) ≠ j) : RefOK seq (F.erase j) C r endIdx w :=
  h.mono (fun _ => prefix_refl _)
    fun q hmem hpre => ⟨Finset.mem_erase.mpr ⟨hne q hpre, hmem⟩, hpre⟩

theorem NodeAt.unvisited {j : Start} (h : NodeOK seq F C n w) (hj : j ∈ F.keys)
    (hw : ¬ w <+: F.str j) : NodeAt seq F (F.erase j) C n w := by
  refine ⟨?_, h.ref, ?_, ?_⟩
  · have hcnt := Family.cnt_erase hj w
    rw [if_neg hw] at hcnt
    rw [h.count]
    omega
  · intro t e he
    obtain ⟨q, hmem, heq, hq⟩ := h.ends t e he
    refine ⟨q, Finset.mem_erase.mpr ⟨?_, hmem⟩, heq, hq⟩
    rintro rfl
    exact hw (heq ▸ prefix_refl _)
  · intro t q hC hmem heq
    exact h.complete t q hC (Finset.mem_of_mem_erase hmem) heq

theorem NodeAt.visited (h : NodeOK seq F (· ≠ s) n w) (hk : (s, k) ∈ F.keys)
    (hw : w <+: F.str (s, k)) (hcount : n'.count = n.count - 1) (hseq : n'.refSeq = n.refSeq)
    (hend : n'.refIdx + n'.length = n.refIdx + n.length)
    (hends : n'.endpoints = n.endpoints.erase s) :
    NodeAt seq F (F.erase (s, k)) (· ≠ s) n' w := by
  refine ⟨?_, fun hw => ?_, ?_, ?_⟩
  · have hcnt := Family.cnt_erase hk w
    rw [if_pos hw] at hcnt
    rw [hcount, h.count]
    omega
  · rw [hseq, hend]
    exact h.ref hw
  · intro t e he
    have ht : t ≠ s := by
      rintro rfl
      simp [hends] at he
    rw [hends, AList.lookup_erase_ne ht] at he
    obtain ⟨q, hmem, heq, hq⟩ := h.ends t e he
    exact ⟨q, Finset.mem_erase.mpr ⟨fun hc => ht (congrArg Prod.fst hc), hmem⟩, heq, hq⟩
  · intro t q ht hmem heq
    rw [hends, AList.lookup_erase_ne ht]
    exact h.complete t q ht (Finset.mem_of_mem_erase hmem) heq

theorem NodeAt.visited_root (h : NodeOK seq F (· ≠ s) n []) (hk : (s, k) ∈ F.keys)
    (hx : F.str (s, k) ≠ []) (hcount : n'.count = n.count - 1)
    (hends : n'.endpoints = n.endpoints) :
    NodeAt seq F (F.erase (s, k)) (· ≠ s) n' [] := by
  refine ⟨?_, fun hw => absurd rfl hw, ?_, ?_⟩
  · have hcnt := Family.cnt_erase hk []
    rw [if_pos nil_prefix] at hcnt
    rw [hcount, h.count]
    omega
  · intro t e he
    rw [hends] at he
    obtain ⟨q, hmem, heq, hq⟩ := h.ends t e he
    refine ⟨q, Finset.mem_erase.mpr ⟨?_, hmem⟩, heq, hq⟩
    intro hc
    rw [hc] at heq
    exact hx heq
  · intro t q ht hmem heq
    rw [hends]
    exact h.complete t q ht (Finset.mem_of_mem_erase hmem) heq

theorem NodeAt.toNodeOK {R : Suffixes} (h : NodeAt seq R F C n w)
    (href : w ≠ [] → RefOK seq F C n.refSeq (n.refIdx + n.length) w) : NodeOK seq F C n w :=
  ⟨h.count, href, h.ends, h.complete⟩

end Nodes

/-! ## The walk -/

/-- The walk down the suffix of `s` at `k` has reached the node `i` with the string `y`. -/
structure Walking (st₀ st : State) (F : Suffixes) (P : Paths) (s : Key) (k : Nat) (i : NodeId)
    (y : List Key) (path : List NodeId) : Prop where
  store : SameStore st₀ st
  next : st.nextNode = st₀.nextNode
  fresh : ∀ j w, P j = some w → j < st₀.nextNode
  shape : Shape st.root st.node (Vertex F) P
  here : P i = some y
  le : y <+: F.str (s, k)
  path : PathUp (Vertex F) P path.reverse y
  root_length : (st.node st.root).length = 0
  visited : ∀ j w, P j = some w → w <+: y → NodeAt st₀.seq F (F.erase (s, k)) (· ≠ s) (st.node j) w
  rest : ∀ j w, P j = some w → ¬ w <+: y → NodeOK st₀.seq F (· ≠ s) (st.node j) w

/-- The walk has ended at the vertex `y`, the last of the vertices `V` on the dropped string. -/
structure Walked (V : List Key → Prop) (st₀ : State) (w : Walk) (F : Suffixes) (P : Paths)
    (s : Key) (k : Nat) (y : List Key) : Prop where
  store : SameStore st₀ w.st
  next : w.st.nextNode = st₀.nextNode
  fresh : ∀ j u, P j = some u → j < st₀.nextNode
  shape : Shape w.st.root w.st.node V P
  here : P w.node = some y
  longest : ∀ u, V u → u <+: F.str (s, k) → u <+: y
  path : PathUp V P w.path.reverse y
  root_length : (w.st.node w.st.root).length = 0
  node : ∀ j u, P j = some u → NodeAt st₀.seq F (F.erase (s, k)) (· ≠ s) (w.st.node j) u

section Walk

variable {st₀ st : State} {F : Suffixes} {P : Paths} {s : Key} {k : Nat} {i c : NodeId}
  {y v : List Key} {path : List NodeId} {b : Key}

namespace Walking

theorem stop (h : Walking st₀ st F P s k i (F.str (s, k)) path) (hk : (s, k) ∈ F.keys)
    (hone : F.cnt (F.str (s, k)) ≠ 1) :
    Walked (Remaining F (s, k)) st₀ ⟨st, i, path⟩ F P s k (F.str (s, k)) := by
  have hpos := (Family.isNode_str hk).1
  have hV : Remaining F (s, k) = Vertex F :=
    funext fun u => propext (remaining_iff_of_lt hk (by omega) u)
  rw [hV]
  refine ⟨h.store, h.next, h.fresh, h.shape, h.here, fun u _ hu => hu, h.path, h.root_length, ?_⟩
  intro j u hj
  by_cases hu : u <+: F.str (s, k)
  · exact h.visited j u hj hu
  · exact NodeAt.unvisited (h.rest j u hj hu) hk hu

theorem next_vertex (h : Walking st₀ st F P s k i y path) (hk : (s, k) ∈ F.keys)
    (hy : y ++ [b] <+: F.str (s, k)) : ∃ c v, (st.node i).children.lookup b = some c ∧
      P c = some v ∧ Cover (Vertex F) y b v ∧ v <+: F.str (s, k) ∧ F.cnt v = F.cnt (y ++ [b]) := by
  have hpos : 0 < F.cnt (y ++ [b]) := Family.cnt_pos_iff.mpr ⟨_, hk, hy⟩
  obtain ⟨v, hcov⟩ := (exists_cover_vertex_iff (h.shape.vertex h.here)).mpr hpos
  obtain ⟨c, hc⟩ := h.shape.exists_id hcov.right
  obtain ⟨-, -, hle, hcnt⟩ := cover_vertex_iff.mp hcov
  exact ⟨c, v, h.shape.child_lookup h.here hc hcov, hc, hcov,
    Family.prefix_of_cnt_eq hle hcnt.ge hk hy, hcnt⟩

theorem prefix_cases (hcov : Cover (Vertex F) y b v) {w : List Key} (hw : Vertex F w)
    (hwv : w <+: v) : w <+: y ∨ w = v := by
  rcases prefix_or_concat_prefix hwv hcov.le with hup | hdown
  · exact .inl hup
  · exact .inr (hcov.min w hw hdown hwv)

/-- One step of the walk to a vertex that remains. -/
theorem enter (h : Walking st₀ st F P s k i y path) (hk : (s, k) ∈ F.keys)
    (hc : P c = some v) (hcov : Cover (Vertex F) y b v) (hv : v <+: F.str (s, k)) {st' : State}
    (hstore : SameStore st st') (hnext : st'.nextNode = st.nextNode) (hself : st'.node c =
      { st.node c with
        count := (st.node c).count - 1
        endpoints := (st.node c).endpoints.erase s })
    (hother : ∀ j, j ≠ c → st'.node j = st.node j) :
    Walking st₀ st' F P s k c v (path ++ [c]) := by
  have hshape : ∀ j w, P j = some w → SameShape (st.node j) (st'.node j) := by
    intro j w _
    by_cases hjc : j = c
    · subst hjc
      rw [hself]
      exact ⟨⟨rfl, rfl, rfl⟩, rfl⟩
    · rw [hother j hjc]
      exact SameShape.refl _
  have hnot : ¬ v <+: y := by
    intro hle
    have h1 := hle.length_le
    have h2 := hcov.length_lt
    omega
  refine ⟨h.store.trans hstore, hnext.trans h.next, h.fresh, ?_, hc, hv, ?_, ?_, ?_, ?_⟩
  · rw [hstore.root]
    exact h.shape.congr (fun _ => Iff.rfl) hshape
  · rw [reverse_append]
    exact PathUp.node h.path hc hcov
  · rw [hstore.root, (hshape _ _ h.shape.root_path).length]
    exact h.root_length
  · intro j w hj hw
    rcases prefix_cases hcov (h.shape.vertex hj) hw with hup | rfl
    · have hjc : j ≠ c := ne_of_path_ne hj hc fun heq => hnot (heq ▸ hup)
      rw [hother j hjc]
      exact h.visited j w hj hup
    · obtain rfl := h.shape.inj hj hc
      rw [hself]
      exact NodeAt.visited (h.rest j w hj hnot) hk hv rfl rfl rfl rfl
  · intro j w hj hw
    have hjc : j ≠ c := ne_of_path_ne hj hc fun heq => hw (heq ▸ prefix_refl _)
    rw [hother j hjc]
    exact h.rest j w hj fun hle => hw (hle.trans hcov.isPrefix)

/-- The last step of the walk, which removes the leaf of the dropped string. -/
theorem prune (h : Walking st₀ st F P s k i y path) (hk : (s, k) ∈ F.keys)
    (hone : F.cnt (F.str (s, k)) = 1) (hc : P c = some (F.str (s, k)))
    (hcov : Cover (Vertex F) y b (F.str (s, k))) (st' : State) (hstore : SameStore st st')
    (hnext : st'.nextNode = st.nextNode)
    (hself : st'.node i = { st.node i with children := (st.node i).children.erase b })
    (hother : ∀ j, j ≠ i → st'.node j = st.node j) :
    Walked (Remaining F (s, k)) st₀ ⟨st', i, path⟩ F (Function.update P c none) s k y := by
  have hV := remaining_iff_of_one hk hcov.ne_nil hone
  -- the leaf has no child, since its only occurrence ends there
  have hleaf : ∀ d u, ¬ Cover (Vertex F) (F.str (s, k)) d u := by
    intro d u hcov'
    have h1 := (exists_cover_vertex_iff hcov'.left).mp ⟨u, hcov'⟩
    have h2 := (Family.isNode_str hk).2 d
    omega
  have hic : i ≠ c := ne_of_path_ne h.here hc hcov.ne
  have hkeep : ∀ {j u}, P j = some u → u ≠ F.str (s, k) → Function.update P c none j = some u := by
    intro j u hj hu
    exact drop_path_iff.mpr ⟨ne_of_path_ne hj hc hu, hj⟩
  have hnot : ¬ F.str (s, k) <+: y := by
    intro hle
    have h1 := hle.length_le
    have h2 := hcov.length_lt
    omega
  refine ⟨h.store.trans hstore, hnext.trans h.next,
    fun j u hj => h.fresh j u (drop_path_iff.mp hj).2, ?_, hkeep h.here hcov.ne, ?_, ?_, ?_, ?_⟩
  · rw [hstore.root]
    refine h.shape.erase hc h.here hV hcov ?_ ?_ ?_ ?_
    · intro d j
      rw [hself]
      by_cases hd : d = b
      · subst hd
        simp [hleaf]
      · simp [AList.lookup_erase_ne hd, hd]
    · rw [hself]
      exact ⟨rfl, rfl, rfl⟩
    · intro j u d _ hcov'
      exact absurd hcov' (hleaf d u)
    · intro j u _ _ hji _
      rw [hother j hji]
      exact SameShape.refl _
  · intro u hu hux
    obtain ⟨hu, hne⟩ := (hV u).mp hu
    exact (prefix_cases hcov hu hux).resolve_right hne
  · refine h.path.mono ?_ ?_
    · intro j u hj hu
      exact hkeep hj fun heq => hnot (heq ▸ hu)
    · intro p d u hu hcov'
      refine (cover_erase_iff hV hcov).mpr (.inl ⟨hcov', ?_, fun heq => hnot (heq ▸ hu)⟩)
      rintro rfl
      exact hleaf d u hcov'
  · rw [hstore.root]
    by_cases hri : st.root = i
    · have hroot := h.root_length
      rw [hri] at hroot ⊢
      rw [hself]
      exact hroot
    · rw [hother _ hri]
      exact h.root_length
  · intro j u hj
    obtain ⟨hjc, hj⟩ := drop_path_iff.mp hj
    have hold : NodeAt st₀.seq F (F.erase (s, k)) (· ≠ s) (st.node j) u := by
      by_cases huy : u <+: y
      · exact h.visited j u hj huy
      · refine NodeAt.unvisited (h.rest j u hj huy) hk fun hux => ?_
        rcases prefix_cases hcov (h.shape.vertex hj) hux with hup | heq
        · exact huy hup
        · exact hjc (h.shape.inj hj (heq ▸ hc))
    show NodeAt _ _ _ _ (st'.node j) u
    by_cases hji : j = i
    · subst hji
      rw [hself]
      exact hold.congr rfl rfl rfl rfl
    · rw [hother j hji]
      exact hold

end Walking

variable {T : List Key}

theorem Walking.stops (h : Walking st₀ st F P s k i (F.str (s, k)) path)
    (hend : F.str (s, k) = T.drop k ∨ ∀ b, F.cnt (F.str (s, k) ++ [b]) = 0) (fuel : Nat) :
    removeWalk s T fuel st i (k + (F.str (s, k)).length) path = ⟨st, i, path⟩ := by
  cases fuel with
  | zero => rfl
  | succ fuel =>
    rcases hend with hfull | hmax
    · have hnone : T[k + (F.str (s, k)).length]? = none := by
        rw [hfull, List.getElem?_eq_none_iff, length_drop]
        omega
      simp only [removeWalk, hnone]
    · cases htoken : T[k + (F.str (s, k)).length]? with
      | none => simp only [removeWalk, htoken]
      | some b =>
        have hlook : (st.node i).children.lookup b = none := by
          rw [eq_none_iff_forall_ne_some]
          intro c hc
          obtain ⟨v, -, hcov⟩ := (h.shape.child h.here b c).mp hc
          have := (exists_cover_vertex_iff hcov.left).mp ⟨v, hcov⟩
          have := hmax b
          omega
        simp only [removeWalk, htoken, hlook]

/-- The state behind a step of the walk to a node that remains. -/
def enterNode (st : State) (s : Key) (c : NodeId) : State :=
  let st := decrementCount st c
  st.setNode c { st.node c with endpoints := (st.node c).endpoints.erase s }

/-- The state behind the last step of the walk, which removes a leaf. -/
def pruneLeaf (st : State) (i : NodeId) (b : Key) (c : NodeId) : State :=
  { st.setNode i { st.node i with children := (st.node i).children.erase b } with
    siblings := removeFromSiblings st.node st.siblings c }

theorem enterNode_self (st : State) (s : Key) (c : NodeId) : (enterNode st s c).node c =
    { st.node c with
      count := (st.node c).count - 1
      endpoints := (st.node c).endpoints.erase s } := by
  simp [enterNode, State.setNode, decrementCount_node]

theorem Walking.enterNode (h : Walking st₀ st F P s k i y path) (hk : (s, k) ∈ F.keys)
    (hc : P c = some v) (hcov : Cover (Vertex F) y b v) (hv : v <+: F.str (s, k)) :
    Walking st₀ (enterNode st s c) F P s k c v (path ++ [c]) := by
  have hstore := decrementCount_sameStore st c
  refine h.enter hk hc hcov hv ⟨hstore.maxDepth, hstore.root, hstore.seqs, hstore.activeNodes⟩
    (decrementCount_nextNode st c) (enterNode_self st s c) fun j hj => ?_
  simp [SuffixTree.enterNode, State.setNode, decrementCount_node, hj]

theorem Walking.next_token (hT : F.str (s, k) <+: T.drop k) (hb : y ++ [b] <+: F.str (s, k)) :
    T[k + y.length]? = some b := by
  rw [← getElem?_drop]
  exact getElem?_of_concat_prefix (hb.trans hT)

theorem Walking.removeWalk_enter (h : Walking st₀ st F P s k i y path)
    (htoken : T[k + y.length]? = some b) (hlook : (st.node i).children.lookup b = some c)
    (hc : P c = some v) (hcov : Cover (Vertex F) y b v) (hgt : (st.node c).count > 1) (n : Nat) :
    removeWalk s T (n + 1) st i (k + y.length) path =
      removeWalk s T n (SuffixTree.enterNode st s c) c (k + v.length) (path ++ [c]) := by
  have hedge := (h.shape.edge h.here hc hcov).2.2
  have hidx : k + y.length + ((decrementCount st c).node c).length = k + v.length := by
    rw [decrementCount_node, Function.update_self]
    simp only
    omega
  simp only [removeWalk, htoken, hlook, if_pos hgt]
  exact congrArg (fun idx => removeWalk s T n (SuffixTree.enterNode st s c) c idx (path ++ [c])) hidx

theorem removeWalk_prune (s : Key) (path : List NodeId) {idx : Nat} (htoken : T[idx]? = some b)
    (hlook : (st.node i).children.lookup b = some c) (hgt : ¬ (st.node c).count > 1) (n : Nat) :
    removeWalk s T (n + 1) st i idx path = ⟨pruneLeaf st i b c, i, path⟩ := by
  simp only [removeWalk, htoken, hlook, if_neg hgt]
  rfl

/-- The walk takes the key off the counts and endpoints and removes its leaf.  One unit of fuel
for each token of the string is enough: more fuel changes nothing. -/
theorem removeWalk_spec (hk : (s, k) ∈ F.keys) (hT : F.str (s, k) <+: T.drop k)
    (hend : F.str (s, k) = T.drop k ∨ ∀ b, F.cnt (F.str (s, k) ++ [b]) = 0) :
    ∀ (fuel : Nat) (st : State) (i : NodeId) (y : List Key) (path : List NodeId),
      Walking st₀ st F P s k i y path → (F.str (s, k)).length ≤ y.length + fuel →
      (y = F.str (s, k) → F.cnt y ≠ 1) →
      (∀ extra, removeWalk s T (fuel + extra) st i (k + y.length) path =
        removeWalk s T fuel st i (k + y.length) path) ∧ ∃ P' y', Walked (Remaining F (s, k)) st₀
          (removeWalk s T fuel st i (k + y.length) path) F P' s k y' ∧ y' <+: F.str (s, k) ∧
        ∀ j u, P j = some u → Remaining F (s, k) u → P' j = some u := by
  intro fuel
  induction fuel with
  | zero =>
    intro st i y path h hfuel hlast
    obtain rfl : y = F.str (s, k) := h.le.eq_of_length (by have := h.le.length_le; omega)
    rw [h.stops hend]
    exact ⟨fun extra => h.stops hend _, P, _, h.stop hk (hlast rfl), prefix_refl _,
      fun j u hj _ => hj⟩
  | succ fuel ih =>
    intro st i y path h hfuel hlast
    by_cases hyx : y = F.str (s, k)
    · subst hyx
      rw [h.stops hend]
      exact ⟨fun extra => h.stops hend _, P, _, h.stop hk (hlast rfl), prefix_refl _,
        fun j u hj _ => hj⟩
    · obtain ⟨b, hb⟩ := exists_concat_prefix h.le hyx
      have htoken : T[k + y.length]? = some b := Walking.next_token hT hb
      obtain ⟨c, v, hlook, hc, hcov, hv, hcnt⟩ := h.next_vertex hk hb
      have hnot : ¬ v <+: y := by
        intro hle
        have h1 := hle.length_le
        have h2 := hcov.length_lt
        omega
      have hcount := (h.rest c v hc hnot).count
      have hnode : F.IsNode v := (cover_vertex_iff.mp hcov).2.1
      by_cases hgt : (st.node c).count > 1
      · have hstep := h.removeWalk_enter htoken hlook hc hcov hgt
        have hlt := hcov.length_lt
        obtain ⟨hextra, hrest⟩ := ih (enterNode st s c) c v (path ++ [c])
          (h.enterNode hk hc hcov hv) (by omega) fun _ => by omega
        rw [hstep]
        refine ⟨fun extra => ?_, hrest⟩
        rw [add_right_comm, hstep]
        exact hextra extra
      · -- the last occurrence: the child is the leaf of the dropped string
        have hvone : F.cnt v = 1 := by
          have := hnode.1
          omega
        have hvx : v = F.str (s, k) := by
          have h1 := (Family.isNode_str hk).1
          have h2 := F.cnt_anti hv
          exact hnode.eq_of_cnt_le hv (by omega)
        subst hvx
        have hprune := h.prune hk hvone hc hcov (pruneLeaf st i b c) ⟨rfl, rfl, rfl, rfl⟩ rfl
          (by simp [pruneLeaf, State.setNode]) (fun j hj => by simp [pruneLeaf, State.setNode, hj])
        have hstep := removeWalk_prune s path htoken hlook hgt
        refine ⟨fun extra => ?_, Function.update P c none, y, ?_, h.le, ?_⟩
        · rw [add_right_comm, hstep, hstep]
        · rw [hstep]
          exact hprune
        · intro j u hj hu
          have hne := ((remaining_iff_of_one hk hcov.ne_nil hvone u).mp hu).2
          exact drop_path_iff.mpr ⟨ne_of_path_ne hj hc hne, hj⟩

end Walk

/-! ## The merge -/

section Merge

variable {st₀ : State} {w : Walk} {F : Suffixes} {P : Paths} {s : Key} {k : Nat}
  {y : List Key}

variable {u v : List Key} {d : Key}

theorem cover_of_remaining (hcov : Cover (Remaining F (s, k)) u d v) : Cover (Vertex F) u d v := by
  refine ⟨hcov.left.1, hcov.right.1, hcov.le, fun x hx hdx hxv => ?_⟩
  have hne : v ≠ [] := hcov.ne_nil
  have hpos := hcov.right.2.resolve_left hne
  exact hcov.min x ⟨hx, .inr (lt_of_lt_of_le hpos (Family.cnt_anti hxv))⟩ hdx hxv

theorem Walked.child_count (h : Walked (Remaining F (s, k)) st₀ w F P s k y) (hk : (s, k) ∈ F.keys)
    {c : NodeId} (hc : P c = some v) (hcov : Cover (Remaining F (s, k)) u d v) :
    (w.st.node c).count = (F.erase (s, k)).cnt (u ++ [d]) := by
  rw [(h.node c v hc).count, cnt_erase_cover hk (cover_of_remaining hcov)]

/-- When all remaining occurrences of a vertex continue along `d`, its only child is there. -/
theorem remaining_only_child {d d' : Key}
    (hd : (F.erase (s, k)).cnt (u ++ [d]) = (F.erase (s, k)).cnt u)
    (hcov : Cover (Remaining F (s, k)) u d' v) : d' = d := by
  have hpos := hcov.right.2.resolve_left hcov.ne_nil
  obtain ⟨j, hj, hvj⟩ := Family.cnt_pos_iff.mp hpos
  have hdj' := hcov.le.trans hvj
  have hdj := Family.prefix_of_cnt_eq (F := F.erase (s, k)) (prefix_append u [d]) hd.ge hj
    ((prefix_append u [d']).trans hdj')
  have heq := (prefix_of_prefix_length_le hdj' hdj (by simp)).eq_of_length (by simp)
  simpa using heq

/-- The condition under which the source merges is that the last vertex stopped branching. -/
theorem Walked.merge_iff (h : Walked (Remaining F (s, k)) st₀ w F P s k y)
    (hk : (s, k) ∈ F.keys) (hy : y ≠ []) :
    (∃ d c, (w.st.node w.node).children.entries = [⟨d, c⟩] ∧
        (w.st.node w.node).count = (w.st.node c).count) ↔
      ∃ b, (F.erase (s, k)).cnt (y ++ [b]) = (F.erase (s, k)).cnt y := by
  have hcount := (h.node w.node y h.here).count
  have hchild := h.shape.child h.here
  constructor
  · rintro ⟨d, c, hentries, heq⟩
    obtain ⟨v, hc, hcov⟩ := (hchild d c).mp ((entries_eq_singleton_iff.mp hentries d c).mpr
      ⟨rfl, rfl⟩)
    refine ⟨d, ?_⟩
    have := h.child_count hk hc hcov
    omega
  · rintro ⟨d, hd⟩
    have hrem := h.shape.vertex h.here
    have hypos := hrem.2.resolve_left hy
    -- the continuation of `y` is a remaining vertex, or above one
    have hvpos : 0 < (F.erase (s, k)).cnt (y ++ [d]) := by omega
    have hFpos : 0 < F.cnt (y ++ [d]) := by
      have := Family.cnt_erase hk (y ++ [d])
      omega
    obtain ⟨v, hcovF⟩ := (exists_cover_vertex_iff hrem.1).mpr hFpos
    have hcov : Cover (Remaining F (s, k)) y d v := by
      have hv := cnt_erase_cover hk hcovF
      exact ⟨hrem, ⟨hcovF.right, .inr (by omega)⟩, hcovF.le, fun u hu => hcovF.min u hu.1⟩
    obtain ⟨c, hc⟩ := h.shape.exists_id hcov.right
    refine ⟨d, c, entries_eq_singleton_iff.mpr fun b c' => ?_, ?_⟩
    · rw [hchild]
      constructor
      · rintro ⟨v', hc', hcov'⟩
        obtain rfl := remaining_only_child hd hcov'
        have h1 := h.shape.child_lookup h.here hc' hcov'
        have h2 := h.shape.child_lookup h.here hc hcov
        exact ⟨rfl, some.inj (h1.symm.trans h2)⟩
      · rintro ⟨rfl, rfl⟩
        exact ⟨v, hc, hcov⟩
    · have := h.child_count hk hc hcov
      omega

theorem Walked.keep (h : Walked (Remaining F (s, k)) st₀ w F P s k y) (hk : (s, k) ∈ F.keys)
    (hyx : y <+: F.str (s, k))
    (hkeep : ¬ (y ≠ [] ∧ ∃ b, (F.erase (s, k)).cnt (y ++ [b]) = (F.erase (s, k)).cnt y)) :
    Walked (Vertex (F.erase (s, k))) st₀ w F P s k y := by
  have hV : Vertex (F.erase (s, k)) = Remaining F (s, k) := by
    funext u
    refine propext ?_
    rw [vertex_erase_iff hk (h.shape.vertex h.here) hyx h.longest]
    exact ⟨And.left, fun hu => ⟨hu, fun hc => hkeep hc.2⟩⟩
  rw [hV]
  exact h

theorem removeMerge_nodes {w : Walk} {d e : Key} {c j : NodeId}
    (hentries : (w.st.node w.node).children.entries = [⟨d, c⟩]) (hroot : w.node ≠ w.st.root)
    (hcount : (w.st.node w.node).count = (w.st.node c).count)
    (hparent : (w.st.node w.node).parent = some j) (htoken : (w.st.node w.node).token = e)
    (hij : w.node ≠ j) (hic : w.node ≠ c) (hjc : j ≠ c) :
    (removeMerge w).st.node c = { w.st.node c with
          token := e, length := (w.st.node c).length + (w.st.node w.node).length,
          refIdx := (w.st.node c).refIdx - (w.st.node w.node).length, parent := some j } ∧
      (removeMerge w).st.node j =
        { w.st.node j with children := (w.st.node j).children.insert e c } ∧
      (∀ b, b ≠ w.node → b ≠ j → b ≠ c → (removeMerge w).st.node b = w.st.node b) ∧
      SameStore w.st (removeMerge w).st ∧ (removeMerge w).st.nextNode = w.st.nextNode ∧
      (removeMerge w).node = c ∧ (removeMerge w).path = w.path.dropLast ++ [c] := by
  have hcond : w.node ≠ w.st.root ∧ (w.st.node w.node).count = (w.st.node c).count :=
    ⟨hroot, hcount⟩
  simp only [removeMerge, hentries, if_pos hcond, hparent, htoken, getD_some, State.setNode]
  refine ⟨?_, ?_, ?_, ⟨rfl, rfl, rfl, rfl⟩, trivial, trivial, trivial⟩
  · simp [hjc.symm, hic.symm]
  · simp [hjc, hij.symm]
  · intro b hbi hbj hbc
    simp [hbi, hbj, hbc]

/-- The merge drops the last vertex when it stopped branching. -/
theorem Walked.merge (h : Walked (Remaining F (s, k)) st₀ w F P s k y) (hk : (s, k) ∈ F.keys)
    (hyx : y <+: F.str (s, k)) (hy : y ≠ [])
    (hb : ∃ b, (F.erase (s, k)).cnt (y ++ [b]) = (F.erase (s, k)).cnt y) {c : NodeId}
    (hentries : (w.st.node w.node).children.entries = [⟨d, c⟩])
    (hcount : (w.st.node w.node).count = (w.st.node c).count) :
    ∃ y', Walked (Vertex (F.erase (s, k))) st₀ (removeMerge w) F
      (Function.update P w.node none) s k y' := by
  have hchild := entries_eq_singleton_iff.mp hentries
  obtain ⟨v, hc, hcov⟩ := (h.shape.child h.here d c).mp ((hchild d c).mpr ⟨rfl, rfl⟩)
  obtain ⟨j, p, e, hj, hp, hparent, htoken, hlen⟩ := h.shape.exists_parent h.here hy
  have hV := vertex_erase_iff hk (h.shape.vertex h.here) hyx h.longest
  have hV' : ∀ u, Vertex (F.erase (s, k)) u ↔ Remaining F (s, k) u ∧ u ≠ y := by
    intro u
    rw [hV]
    exact ⟨fun hu => ⟨hu.1, fun heq => hu.2 ⟨heq, hy, hb⟩⟩, fun hu => ⟨hu.1, fun hc => hu.2 hc.1⟩⟩
  have hij : w.node ≠ j := ne_of_path_ne h.here hj hp.ne.symm
  have hic : w.node ≠ c := ne_of_path_ne h.here hc hcov.ne
  have hjc : j ≠ c := ne_of_path_ne hj hc fun heq => by
    have h1 := hp.length_lt
    have h2 := hcov.length_lt
    rw [heq] at h1
    omega
  have hri : w.st.root ≠ w.node := ne_of_path_ne h.shape.root_path h.here hy.symm
  have honly : ∀ {d' u b}, P b = some u → Cover (Remaining F (s, k)) y d' u → b = c ∧ u = v := by
    intro d' u b hb' hcov'
    obtain ⟨-, rfl⟩ := (hchild d' b).mp (h.shape.child_lookup h.here hb' hcov')
    exact ⟨rfl, by simpa [hc] using hb'.symm⟩
  obtain ⟨hself, hpar, hother, hstore, hnext, hnode, hpath⟩ :=
    removeMerge_nodes hentries hri.symm hcount hparent htoken hij hic hjc
  refine ⟨v, h.store.trans hstore, hnext.trans h.next,
    fun b u hb' => h.fresh b u (drop_path_iff.mp hb').2, ?_, ?_, ?_, ?_, ?_, ?_⟩
  · rw [hstore.root]
    refine h.shape.erase h.here hj hV' hp ?_ ?_ ?_ ?_
    · intro b b'
      rw [hpar]
      by_cases hbe : b = e
      · subst hbe
        simp only [AList.lookup_insert, true_and, ne_eq, not_true, false_and, or_false, some.injEq]
        constructor
        · rintro rfl
          exact ⟨d, v, hc, hcov⟩
        · rintro ⟨d', u, hb', hcov'⟩
          exact (honly hb' hcov').1.symm
      · simp [AList.lookup_insert_ne hbe, hbe]
    · rw [hpar]
      exact ⟨rfl, rfl, rfl⟩
    · intro b u d' hb' hcov'
      obtain ⟨rfl, -⟩ := honly hb' hcov'
      rw [hself]
      exact ⟨rfl, hparent.symm, htoken.symm, add_comm _ _⟩
    · intro b u hb' hbi hbj hnot
      have hbc : b ≠ c := by
        rintro rfl
        rw [hc, some.injEq] at hb'
        exact hnot d (hb' ▸ hcov)
      rw [hother b hbi hbj hbc]
      exact SameShape.refl _
  · rw [hnode]
    exact drop_path_iff.mpr ⟨hic.symm, hc⟩
  · intro u hu hux
    exact (h.longest u ((hV' u).mp hu).1 hux).trans hcov.isPrefix
  · -- the child takes the place of the last node of the path
    obtain ⟨i, rest, p', b, hrev, hi, hcov', hrest⟩ := h.path.exists_tail hy
    obtain ⟨rfl, -⟩ := hcov'.unique_parent hp
    have hpath' : (removeMerge w).path.reverse = c :: rest := by
      rw [hpath, reverse_append, ← tail_reverse, hrev]
      rfl
    have hne : ∀ u, u <+: p' → u ≠ y := by
      rintro u hu rfl
      have h1 := hu.length_le
      have h2 := hp.length_lt
      omega
    rw [hpath']
    refine PathUp.node (b := e) (hrest.mono ?_ ?_) (drop_path_iff.mpr ⟨hic.symm, hc⟩) ?_
    · intro b u hb' hu
      exact drop_path_iff.mpr ⟨ne_of_path_ne hb' h.here (hne u hu), hb'⟩
    · intro a b u hu hcov'
      exact (cover_erase_iff hV' hp).mpr
        (.inl ⟨hcov', hne a (hcov'.isPrefix.trans hu), hne u hu⟩)
    · exact (cover_erase_iff hV' hp).mpr (.inr ⟨rfl, rfl, d, hcov⟩)
  · rw [hstore.root]
    have hroot := h.root_length
    have hrc : w.st.root ≠ c := ne_of_path_ne h.shape.root_path hc hcov.ne_nil.symm
    by_cases hrj : w.st.root = j
    · rw [hrj] at hroot ⊢
      rw [hpar]
      exact hroot
    · rw [hother _ hri hrj hrc]
      exact hroot
  · intro b u hb'
    obtain ⟨hbi, hb'⟩ := drop_path_iff.mp hb'
    have hold := h.node b u hb'
    by_cases hbc : b = c
    · subst hbc
      rw [hself]
      refine hold.congr rfl rfl ?_ rfl
      simp only
      push_cast
      ring
    · by_cases hbj : b = j
      · subst hbj
        rw [hpar]
        exact hold.congr rfl rfl rfl rfl
      · rw [hother b hbi hbj hbc]
        exact hold

/-- After the merge the tree has the vertices of the family without the key. -/
theorem removeMerge_spec (h : Walked (Remaining F (s, k)) st₀ w F P s k y)
    (hk : (s, k) ∈ F.keys) (hyx : y <+: F.str (s, k)) :
    ∃ P' y', Walked (Vertex (F.erase (s, k))) st₀ (removeMerge w) F P' s k y' ∧
      ∀ j u, P j = some u → Vertex (F.erase (s, k)) u → P' j = some u := by
  have hroot := h.shape.ne_root h.here
  by_cases hmerge : y ≠ [] ∧ ∃ b, (F.erase (s, k)).cnt (y ++ [b]) = (F.erase (s, k)).cnt y
  · obtain ⟨hy, hb⟩ := hmerge
    obtain ⟨d, c, hentries, hcount⟩ := (h.merge_iff hk hy).mpr hb
    obtain ⟨y', hpost⟩ := h.merge hk hyx hy hb hentries hcount
    refine ⟨_, y', hpost, fun j u hj hu => drop_path_iff.mpr ⟨?_, hj⟩⟩
    rintro rfl
    obtain rfl : u = y := by simpa [h.here] using hj.symm
    exact ((vertex_erase_iff hk (h.shape.vertex h.here) hyx h.longest u).mp hu).2 ⟨rfl, hy, hb⟩
  · have hsame : removeMerge w = w := by
      simp only [removeMerge]
      split
      · rename_i d c hentries
        rw [if_neg]
        rintro ⟨hne, hcount⟩
        exact hmerge ⟨hroot.mp hne, (h.merge_iff hk (hroot.mp hne)).mp ⟨d, c, hentries, hcount⟩⟩
      · rfl
    rw [hsame]
    exact ⟨P, y, h.keep hk hyx hmerge, fun j u hj _ => hj⟩

end Merge

/-! ## One suffix -/

section Suffix

variable {st : State} {w : Walk} {F : Suffixes} {P : Paths} {s : Key} {k : Nat} {y : List Key}

theorem walking_root (h : Inv st F (· ≠ s) P) (hk : (s, k) ∈ F.keys) (hx : F.str (s, k) ≠ []) :
    Walking st (st.setNode st.root { st.node st.root with
      count := (st.node st.root).count - 1 }) F P s k st.root [] [] := by
  set st' := st.setNode st.root { st.node st.root with
    count := (st.node st.root).count - 1 } with hst'
  have hroot : st'.node st.root = { st.node st.root with
      count := (st.node st.root).count - 1 } := by
    simp [hst', State.setNode]
  have hother : ∀ i, i ≠ st.root → st'.node i = st.node i := by
    intro i hi
    simp [hst', State.setNode, hi]
  refine ⟨⟨rfl, rfl, rfl, rfl⟩, rfl, fun _ _ hi => h.fresh hi, ?_, h.shape.root_path,
    nil_prefix, PathUp.root, ?_, ?_, ?_⟩
  · refine h.shape.congr (fun _ => Iff.rfl) fun i w _ => ?_
    by_cases hi : i = st.root
    · subst hi
      rw [hroot]
      exact ⟨⟨rfl, rfl, rfl⟩, rfl⟩
    · rw [hother i hi]
      exact SameShape.refl _
  · exact (congrArg Node.length hroot).trans h.root_length
  · intro i w hi hw
    obtain rfl := prefix_nil.mp hw
    obtain rfl := h.shape.inj hi h.shape.root_path
    rw [hroot]
    exact NodeAt.visited_root (h.node hi) hk hx rfl rfl
  · intro i w hi hw
    have hir : i ≠ st.root := (h.shape.ne_root hi).mpr fun heq => hw (heq ▸ prefix_refl _)
    rw [hother i hir]
    exact h.node hi

theorem exists_str_of_leaf {F : Suffixes} {v : List Key} (hv : Vertex F v) (hne : v ≠ [])
    (hleaf : ∀ b u, ¬ Cover (Vertex F) v b u) : ∃ j ∈ F.keys, F.str j = v := by
  have hpos := (hv.resolve_left hne).1
  obtain ⟨j, hj, hpre⟩ := Family.cnt_pos_iff.mp hpos
  refine ⟨j, hj, ?_⟩
  by_contra hne'
  obtain ⟨b, hb⟩ := exists_concat_prefix hpre (Ne.symm hne')
  obtain ⟨u, hcov⟩ := (exists_cover_vertex_iff hv).mpr (Family.cnt_pos_iff.mpr ⟨j, hj, hb⟩)
  exact hleaf b u hcov

theorem length_le_of_vertex {F : Suffixes} {D : Nat} (hD : ∀ j ∈ F.keys, (F.str j).length ≤ D)
    {u : List Key} (hu : Vertex F u) : u.length ≤ D := by
  rcases hu with rfl | hu
  · exact zero_le
  · obtain ⟨j, hj, hpre⟩ := Family.cnt_pos_iff.mp hu.1
    exact hpre.length_le.trans (hD j hj)

/-- The invariant holds again once every visited reference is justified. -/
theorem Walked.toInv {st₀ st' : State}
    (h : Walked (Vertex (F.erase (s, k))) st₀ w F P s k y)
    (hstrings : ∀ j ∈ F.keys, F.str j <+: (st₀.seq j.1).drop j.2)
    (hstore : SameStore w.st st') (hnext : st'.nextNode = w.st.nextNode)
    (hshape : ∀ i u, P i = some u → SameShape (w.st.node i) (st'.node i))
    (hnode : ∀ i u, P i = some u → (st'.node i).count = (w.st.node i).count ∧
      (st'.node i).endpoints = (w.st.node i).endpoints)
    (hrest : ∀ i u, P i = some u → ¬ u <+: y → st'.node i = w.st.node i)
    (href : ∀ i u, P i = some u → u ≠ [] → u <+: y →
      RefOK st₀.seq (F.erase (s, k)) (· ≠ s) (st'.node i).refSeq
        ((st'.node i).refIdx + (st'.node i).length) u) :
    Inv st' (F.erase (s, k)) (· ≠ s) P := by
  refine ⟨?_, ?_, ?_, ?_, ?_⟩
  · rw [hstore.root]
    exact h.shape.congr (fun _ => Iff.rfl) hshape
  · intro i u hi
    rw [hnext, h.next]
    exact h.fresh i u hi
  · rw [hstore.root, (hshape _ _ h.shape.root_path).length]
    exact h.root_length
  · intro i u hi
    rw [hstore.seq, h.store.seq]
    have hat := h.node i u hi
    by_cases huy : u <+: y
    · exact ⟨(hnode i u hi).1.trans hat.count, fun hu => href i u hi hu huy,
        (hnode i u hi).2 ▸ hat.ends, (hnode i u hi).2 ▸ hat.complete⟩
    · rw [hrest i u hi huy]
      refine hat.toNodeOK fun hu => (hat.ref hu).erase fun q hq heq => ?_
      rw [heq] at hq
      exact huy (h.longest u (h.shape.vertex hi) hq)
  · intro j hj
    rw [hstore.seq, h.store.seq]
    exact hstrings j (Finset.mem_of_mem_erase hj)

/-- A reference to another sequence never goes through the dropped start. -/
theorem Walked.ref_other (h : Walked (Vertex (F.erase (s, k))) st w F P s k y) {i : NodeId}
    {u : List Key} (hi : P i = some u) (hu : u ≠ []) (hne : (w.st.node i).refSeq ≠ s) :
    RefOK st.seq (F.erase (s, k)) (· ≠ s) (w.st.node i).refSeq
      ((w.st.node i).refIdx + (w.st.node i).length) u :=
  ((h.node i u hi).ref hu).erase fun _ _ heq => hne (congrArg Prod.fst heq)

/-- The references on the path are repaired with a start that goes on from it. -/
theorem Walked.repair (h : Walked (Vertex (F.erase (s, k))) st w F P s k y)
    (hstrings : ∀ j ∈ F.keys, F.str j <+: (st.seq j.1).drop j.2) {t : Key} {q : Nat}
    (hmem : (t, q) ∈ (F.erase (s, k)).keys) (hy : y <+: F.str (t, q)) :
    SameStore w.st (repairRefs s t w.path.reverse ((q : Int) + y.length) w.st) ∧
      Inv (repairRefs s t w.path.reverse ((q : Int) + y.length) w.st) (F.erase (s, k)) (· ≠ s) P := by
  obtain ⟨hstore, hnext, hnot, hin⟩ := repairRefs_spec (s := s) (t := t) (q := q) h.path h.shape
  set st' := repairRefs s t w.path.reverse ((q : Int) + y.length) w.st
  -- the nodes on the path are those above the end of the walk
  have hmem_iff : ∀ i u, P i = some u → u ≠ [] → u <+: y → i ∈ w.path.reverse := by
    intro i u hi hu huy
    obtain ⟨j, hj, hju⟩ := h.path.exists_mem (h.shape.vertex hi) huy hu
    exact h.shape.inj hju hi ▸ hj
  have hnode : ∀ i u, P i = some u → st'.node i = w.st.node i ∨
      st'.node i = redirect s t (q + u.length) (w.st.node i) := by
    intro i u hi
    by_cases him : i ∈ w.path.reverse
    · exact .inr (hin i u him hi)
    · exact .inl (hnot i him)
  refine ⟨hstore, h.toInv hstrings hstore hnext ?_ ?_ ?_ ?_⟩
  · intro i u hi
    rcases hnode i u hi with hsame | hred
    · rw [hsame]
      exact SameShape.refl _
    · rw [hred]
      unfold redirect
      split <;> exact ⟨⟨rfl, rfl, rfl⟩, rfl⟩
  · intro i u hi
    rcases hnode i u hi with hsame | hred
    · rw [hsame]
      exact ⟨rfl, rfl⟩
    · rw [hred]
      unfold redirect
      split <;> exact ⟨rfl, rfl⟩
  · intro i u hi huy
    exact hnot i fun him => huy (h.path.prefix_of_mem him hi)
  · intro i u hi hu huy
    rw [hin i u (hmem_iff i u hi hu huy) hi]
    unfold redirect
    by_cases hs : (w.st.node i).refSeq = s
    · rw [if_pos hs]
      have hpre : u <+: F.str (t, q) := huy.trans hy
      have hseq := hpre.trans (hstrings (t, q) (Finset.mem_of_mem_erase hmem))
      refine RefOK.of_start (q := q) ?_ hseq hmem hpre
      simp
    · rw [if_neg hs]
      exact h.ref_other hi hu hs

theorem removeSuffix_eq (layout : Layout) (s : Key) (T : List Key) (st : State) (k : Nat)
    {leaf : NodeId} {distance : Nat} (hw : removeMerge (removeWalk s T (T.length - k)
      (st.setNode st.root { st.node st.root with count := (st.node st.root).count - 1 })
      st.root k []) = w)
    (hdescend : descend (layout.child k) w.st w.st.maxDepth w.node 0 = (leaf, distance)) :
    removeSuffix layout s T st k = if ((w.st.node leaf).endpoints.lookup s).isSome then w.st
      else
        match Int32Map.begin (layout.endpoint k) (w.st.node leaf).endpoints with
        | none => w.st
        | some (t, e) => repairRefs s t w.path.reverse ((e : Int) - distance) w.st := by
  subst hw
  have hleaf := congrArg Prod.fst hdescend
  have hdistance := congrArg Prod.snd hdescend
  dsimp only at hleaf hdistance
  rw [← hleaf, ← hdistance]
  rfl

/-- The iteration of `remove` for one start drops its key from the family. -/
theorem removeSuffix_spec (h : Inv st F (· ≠ s) P) (hk : (s, k) ∈ F.keys)
    (hx : F.str (s, k) ≠ []) (hD : ∀ j ∈ F.keys, (F.str j).length ≤ st.maxDepth)
    (hend : F.str (s, k) = (st.seq s).drop k ∨ ∀ b, F.cnt (F.str (s, k) ++ [b]) = 0)
    (layout : Layout) :
    SameStore st (removeSuffix layout s (st.seq s) st k) ∧
      ∃ P', Inv (removeSuffix layout s (st.seq s) st k) (F.erase (s, k)) (· ≠ s) P' ∧
        ∀ i j, j ∈ (F.erase (s, k)).keys → P i = some (F.str j) → P' i = some (F.str j) := by
  have hT : F.str (s, k) <+: (st.seq s).drop k := h.strings (s, k) hk
  have hfuel : (F.str (s, k)).length ≤ ([] : List Key).length + ((st.seq s).length - k) := by
    have := hT.length_le
    rw [length_drop] at this
    simpa using this
  obtain ⟨-, P₁, y₁, hwalked, hy₁, hframe₁⟩ := removeWalk_spec hk hT hend _ _ _ _ _
    (walking_root h hk hx) hfuel (fun heq => absurd heq.symm hx)
  obtain ⟨P', y, hmerged, hframe₂⟩ := removeMerge_spec hwalked hk hy₁
  set w := removeMerge (removeWalk s (st.seq s) ((st.seq s).length - k)
    (st.setNode st.root { st.node st.root with count := (st.node st.root).count - 1 })
    st.root (k + ([] : List Key).length) []) with hw
  have hD' : ∀ u, Vertex (F.erase (s, k)) u → u.length ≤ w.st.maxDepth := by
    intro u hu
    rw [hmerged.store.maxDepth]
    exact length_le_of_vertex (F := F.erase (s, k))
      (fun j hj => hD j (Finset.mem_of_mem_erase hj)) hu
  obtain ⟨v, added, hdist, hleaf, hyv, hlen, hnochild⟩ := descend_spec hmerged.shape hD'
    (layout.child k) w.st.maxDepth w.node y 0 hmerged.here (by omega)
  set leaf := (descend (layout.child k) w.st w.st.maxDepth w.node 0).1 with hleafdef
  have hdescend : descend (layout.child k) w.st w.st.maxDepth w.node 0 = (leaf, 0 + added) :=
    Prod.ext rfl hdist
  have hresult := removeSuffix_eq layout s (st.seq s) st k hw.symm hdescend
  have hframe : ∀ i j, j ∈ (F.erase (s, k)).keys → P i = some (F.str j) →
      P' i = some (F.str j) := by
    intro i j hj hi
    have hvertex : Vertex (F.erase (s, k)) (F.str j) := .inr (Family.isNode_str hj)
    have hrem := ((vertex_erase_iff hk (hwalked.shape.vertex hwalked.here) hy₁
      hwalked.longest _).mp hvertex).1
    exact hframe₂ i _ (hframe₁ i _ hi hrem) hvertex
  have hat := hmerged.node leaf v hleaf
  -- the repair is skipped when a later start of the sequence ends at the leaf
  have hskip : (v ≠ [] → ∃ q, (s, q) ∈ (F.erase (s, k)).keys ∧ F.str (s, q) = v) →
      Inv w.st (F.erase (s, k)) (· ≠ s) P' := by
    intro hlive
    refine hmerged.toInv h.strings (SameStore.refl _) rfl (fun i u _ => SameShape.refl _)
      (fun i u _ => ⟨rfl, rfl⟩) (fun i u _ _ => rfl) fun i u hi hu huy => ?_
    by_cases hs : (w.st.node i).refSeq = s
    · obtain ⟨⟨q, hq, hpre, -⟩, -⟩ := (hmerged.node i u hi).ref hu
      have hv : v ≠ [] := by
        rintro rfl
        exact hu (prefix_nil.mp (huy.trans hyv))
      obtain ⟨q', hmem, hstr⟩ := hlive hv
      rw [hs] at hpre ⊢
      exact ⟨⟨q, hq, hpre, fun hC => absurd rfl hC⟩, q', hmem, hstr ▸ huy.trans hyv⟩
    · exact hmerged.ref_other hi hu hs
  rw [hresult]
  by_cases hsome : ((w.st.node leaf).endpoints.lookup s).isSome
  · rw [if_pos hsome]
    refine ⟨hmerged.store, P', hskip fun _ => ?_, hframe⟩
    obtain ⟨e, he⟩ := isSome_iff_exists.mp hsome
    obtain ⟨q, hmem, heq, -⟩ := hat.ends s e he
    exact ⟨q, hmem, heq⟩
  · rw [if_neg hsome]
    cases hbegin : Int32Map.begin (layout.endpoint k) (w.st.node leaf).endpoints with
    | none =>
      refine ⟨hmerged.store, P', hskip fun hv => ?_, hframe⟩
      -- the strings that end at the leaf are all of `s`, which has no exact endpoints now
      obtain ⟨⟨t, q⟩, hmem, heq⟩ := exists_str_of_leaf (hmerged.shape.vertex hleaf) hv hnochild
      have ht : t = s := by
        by_contra hts
        have := hat.complete t q hts hmem heq
        rw [lookup_of_begin_eq_none hbegin] at this
        simp at this
      exact ⟨q, ht ▸ hmem, ht ▸ heq⟩
    | some entry =>
      obtain ⟨t, e⟩ := entry
      have hlook := lookup_of_begin hbegin
      obtain ⟨q, hmem, heq, hq⟩ := hat.ends t e hlook
      have hidx : (e : Int) - (0 + added : Nat) = (q : Int) + y.length := by omega
      obtain ⟨hstore, hinv⟩ := hmerged.repair h.strings hmem (hyv.trans (heq ▸ prefix_refl _))
      simp only
      rw [hidx]
      exact ⟨hmerged.store.trans hstore, P', hinv, hframe⟩

end Suffix

end ArcticPlatform.SuffixTree
