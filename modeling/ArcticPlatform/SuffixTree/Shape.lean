import ArcticPlatform.Library.CompressedTrie
import ArcticPlatform.SuffixTree.Operations

/-!
# Suffix tree: the heap spells a set of strings

`Shape` says that the children maps, parent pointers, first tokens and
lengths of a heap form the path-compressed trie of a given set of vertex
strings.  The ghost map `P` gives the string of every node of the tree.

Main results: one theorem for each of the three ways in which `append` and
`remove` change the structure.

- Theorem `Shape.insert`: a vertex is added one token below another one, as
  a leaf or in the middle of an edge.
- Theorem `Shape.rename`: a vertex moves one token down.
- Theorem `Shape.erase`: a vertex is dropped, and its children hang below
  its parent.
-/

namespace ArcticPlatform.SuffixTree

open CompressedTrie List

/-- The ghost map from nodes of the tree to the strings they spell. -/
abbrev Paths := NodeId → Option (List Key)

/-- The heap is the path-compressed trie with the vertex strings `V`. -/
structure Shape (root : NodeId) (node : NodeId → Node) (V : List Key → Prop) (P : Paths) :
    Prop where
  root_path : P root = some []
  inj : ∀ {i j w}, P i = some w → P j = some w → i = j
  vertex : ∀ {i w}, P i = some w → V w
  exists_id : ∀ {w}, V w → ∃ i, P i = some w
  child : ∀ {i w}, P i = some w → ∀ b c,
    (node i).children.lookup b = some c ↔ ∃ v, P c = some v ∧ Cover V w b v
  edge : ∀ {i c w v b}, P i = some w → P c = some v → Cover V w b v →
    (node c).parent = some i ∧ (node c).token = b ∧ w.length + (node c).length = v.length

/-- The two nodes agree on the fields that describe the edge above them. -/
structure SameEdge (n n' : Node) : Prop where
  parent : n'.parent = n.parent
  token : n'.token = n.token
  length : n'.length = n.length

/-- The two nodes agree on the fields that make up the structure of the tree. -/
structure SameShape (n n' : Node) : Prop extends SameEdge n n' where
  children : n'.children = n.children

theorem SameShape.refl (n : Node) : SameShape n n := ⟨⟨rfl, rfl, rfl⟩, rfl⟩

variable {P : Paths}

theorem update_path_iff {j c : NodeId} {y v : List Key} :
    Function.update P j (some y) c = some v ↔ (c = j ∧ v = y) ∨ (c ≠ j ∧ P c = some v) := by
  by_cases hc : c = j
  · subst hc
    simp [eq_comm]
  · simp [hc]

theorem drop_path_iff {j c : NodeId} {v : List Key} :
    Function.update P j none c = some v ↔ c ≠ j ∧ P c = some v := by
  by_cases hc : c = j
  · subst hc
    simp
  · simp [hc]

theorem ne_of_path_ne {i j : NodeId} {w v : List Key} (hi : P i = some w) (hj : P j = some v)
    (hne : w ≠ v) : i ≠ j := by
  rintro rfl
  exact hne (by simpa [hi] using hj)

namespace Shape

variable {root : NodeId} {node node' : NodeId → Node} {V V' : List Key → Prop} {P : Paths}
  {i j c₀ p₀ : NodeId} {x v₀ p : List Key} {a e d : Key}

section

variable (h : Shape root node V P)
include h

theorem congr (hV : ∀ u, V' u ↔ V u)
    (hnode : ∀ i w, P i = some w → SameShape (node i) (node' i)) : Shape root node' V' P := by
  have hVV : V' = V := funext fun u => propext (hV u)
  subst hVV
  refine ⟨h.root_path, h.inj, h.vertex, h.exists_id, ?_, ?_⟩
  · intro i w hi b c
    rw [(hnode i w hi).children]
    exact h.child hi b c
  · intro i c w v b hi hc hcov
    have hs := hnode c v hc
    rw [hs.parent, hs.token, hs.length]
    exact h.edge hi hc hcov

theorem child_lookup {w v : List Key} {b : Key} {c : NodeId}
    (hi : P i = some w) (hc : P c = some v) (hcov : Cover V w b v) :
    (node i).children.lookup b = some c := (h.child hi b c).mpr ⟨v, hc, hcov⟩

theorem exists_parent {w : List Key} (hi : P i = some w)
    (hne : w ≠ []) : ∃ j p b, P j = some p ∧ Cover V p b w ∧ (node i).parent = some j ∧
      (node i).token = b ∧ p.length + (node i).length = w.length := by
  obtain ⟨p, b, hcov⟩ := exists_cover (h.vertex h.root_path) (h.vertex hi) hne
  obtain ⟨j, hj⟩ := h.exists_id hcov.left
  obtain ⟨h1, h2, h3⟩ := h.edge hj hi hcov
  exact ⟨j, p, b, hj, hcov, h1, h2, h3⟩

theorem ne_root {w : List Key} (hi : P i = some w) : i ≠ root ↔ w ≠ [] := by
  constructor
  · rintro hne rfl
    exact hne (h.inj hi h.root_path)
  · rintro hne rfl
    rw [h.root_path] at hi
    exact hne (by simpa using hi.symm)

/-- One node gets a string that no node has. -/
theorem inj_update {j : NodeId} {y : List Key} (hold : ∀ {c v}, P c = some v → v ≠ y) {c c' : NodeId}
    {w : List Key} (hc : Function.update P j (some y) c = some w)
    (hc' : Function.update P j (some y) c' = some w) : c = c' := by
  rcases update_path_iff.mp hc with ⟨hcj, hw⟩ | ⟨-, hcold⟩ <;>
    rcases update_path_iff.mp hc' with ⟨hcj', hw'⟩ | ⟨-, hcold'⟩
  · rw [hcj, hcj']
  · exact absurd hw (hold hcold')
  · exact absurd hw' (hold hcold)
  · exact h.inj hcold hcold'

/-- A vertex is added one token below `x`.  A vertex of the old edge along `a` then hangs below
the new one. -/
theorem insert (hi : P i = some x) (hj : P j = none)
    (hV : ∀ u, V' u ↔ V u ∨ u = x ++ [a]) (hnew : ¬ V (x ++ [a]))
    (hedge : (node' j).parent = some i ∧ (node' j).token = a ∧ (node' j).length = 1)
    (hchildren : ∀ b c, (node' j).children.lookup b = some c ↔
      ∃ v, P c = some v ∧ Cover V x a v ∧ x ++ [a] ++ [b] <+: v)
    (hpar : (node' i).children = (node i).children.insert a j ∧ SameEdge (node i) (node' i))
    (hbelow : ∀ c v, P c = some v → Cover V x a v →
      (node' c).children = (node c).children ∧ (node' c).parent = some j ∧
        x ++ [a] ++ [(node' c).token] <+: v ∧ (node' c).length + 1 = (node c).length)
    (hrest : ∀ c v, P c = some v → c ≠ i → ¬ Cover V x a v → SameShape (node c) (node' c)) :
    Shape root node' V' (Function.update P j (some (x ++ [a]))) := by
  have hij : i ≠ j := by
    rintro rfl
    simp [hi] at hj
  have hcj : ∀ {c v}, P c = some v → c ≠ j := by
    rintro c v hc rfl
    simp [hj] at hc
  have hold : ∀ {c v}, P c = some v → v ≠ x ++ [a] := by
    rintro c v hc rfl
    exact hnew (h.vertex hc)
  have hcover : ∀ {w v : List Key} {b : Key}, Cover V' w b v ↔ _ :=
    @fun w v b => cover_insert_iff (w := w) (v := v) (b := b) hV (h.vertex hi) hnew
  have hchildren_old : ∀ {c v}, P c = some v → c ≠ i → (node' c).children = (node c).children := by
    intro c v hc hci
    by_cases hcov : Cover V x a v
    · exact (hbelow c v hc hcov).1
    · exact (hrest c v hc hci hcov).children
  refine ⟨?_, ?_, ?_, ?_, ?_, ?_⟩
  · exact update_path_iff.mpr (.inr ⟨hcj h.root_path, h.root_path⟩)
  · exact h.inj_update hold
  · intro c w hc
    rcases update_path_iff.mp hc with ⟨-, hw⟩ | ⟨-, hc⟩
    · exact (hV w).mpr (.inr hw)
    · exact (hV w).mpr (.inl (h.vertex hc))
  · intro w hw
    rcases (hV w).mp hw with hw | hw
    · obtain ⟨c, hc⟩ := h.exists_id hw
      exact ⟨c, update_path_iff.mpr (.inr ⟨hcj hc, hc⟩)⟩
    · exact ⟨j, update_path_iff.mpr (.inl ⟨rfl, hw⟩)⟩
  · intro c w hc b c'
    rcases update_path_iff.mp hc with ⟨rfl, rfl⟩ | ⟨-, hc⟩
    · rw [hchildren]
      constructor
      · rintro ⟨v, hv, hcov, hle⟩
        exact ⟨v, update_path_iff.mpr (.inr ⟨hcj hv, hv⟩),
          hcover.mpr (.inr (.inl ⟨rfl, hcov, hle⟩))⟩
      · rintro ⟨v, hv, hcov⟩
        rcases hcover.mp hcov with ⟨-, hw, -⟩ | ⟨-, hcov, hle⟩ | ⟨hcov, -⟩
        · simp at hw
        · rcases update_path_iff.mp hv with ⟨-, rfl⟩ | ⟨-, hv⟩
          · exact absurd hcov.right hnew
          · exact ⟨v, hv, hcov, hle⟩
        · exact absurd hcov.left hnew
    · by_cases hci : c = i
      · subst hci
        obtain rfl : w = x := by simpa [hi] using hc.symm
        rw [hpar.1]
        by_cases hb : b = a
        · subst hb
          rw [AList.lookup_insert]
          constructor
          · rintro ⟨⟩
            exact ⟨_, update_path_iff.mpr (.inl ⟨rfl, rfl⟩), hcover.mpr (.inl ⟨rfl, rfl, rfl⟩)⟩
          · rintro ⟨v, hv, hcov⟩
            rcases hcover.mp hcov with ⟨rfl, -, -⟩ | ⟨hw, -⟩ | ⟨-, hne⟩
            · rcases update_path_iff.mp hv with ⟨rfl, -⟩ | ⟨-, hv⟩
              · rfl
              · exact absurd rfl (hold hv)
            · simp at hw
            · exact absurd ⟨rfl, rfl⟩ hne
        · rw [AList.lookup_insert_ne hb, h.child hi]
          constructor
          · rintro ⟨v, hv, hcov⟩
            exact ⟨v, update_path_iff.mpr (.inr ⟨hcj hv, hv⟩),
              hcover.mpr (.inr (.inr ⟨hcov, fun hc => hb hc.2⟩))⟩
          · rintro ⟨v, hv, hcov⟩
            rcases hcover.mp hcov with ⟨-, -, hba⟩ | ⟨hw, -⟩ | ⟨hcov, -⟩
            · exact absurd hba hb
            · simp at hw
            · rcases update_path_iff.mp hv with ⟨-, rfl⟩ | ⟨-, hv⟩
              · exact absurd hcov.right hnew
              · exact ⟨v, hv, hcov⟩
      · have hwx : w ≠ x := fun hwx => hci (h.inj hc (hwx ▸ hi))
        rw [hchildren_old hc hci, h.child hc]
        constructor
        · rintro ⟨v, hv, hcov⟩
          exact ⟨v, update_path_iff.mpr (.inr ⟨hcj hv, hv⟩),
            hcover.mpr (.inr (.inr ⟨hcov, fun hc => hwx hc.1⟩))⟩
        · rintro ⟨v, hv, hcov⟩
          rcases hcover.mp hcov with ⟨-, hw, -⟩ | ⟨hw, -⟩ | ⟨hcov, -⟩
          · exact absurd hw hwx
          · exact absurd hw (hold hc)
          · rcases update_path_iff.mp hv with ⟨-, rfl⟩ | ⟨-, hv⟩
            · exact absurd hcov.right hnew
            · exact ⟨v, hv, hcov⟩
  · intro c c' w v b hc hc' hcov
    rcases hcover.mp hcov with ⟨rfl, rfl, rfl⟩ | ⟨rfl, hcov, hle⟩ | ⟨hcov, hne⟩
    · -- the edge above the new vertex
      obtain rfl : c' = j := by
        rcases update_path_iff.mp hc' with ⟨hcj, -⟩ | ⟨-, hc'⟩
        · exact hcj
        · exact absurd rfl (hold hc')
      obtain rfl : c = i := by
        rcases update_path_iff.mp hc with ⟨-, hw⟩ | ⟨-, hc⟩
        · simp at hw
        · exact h.inj hc hi
      exact ⟨hedge.1, hedge.2.1, by simp [hedge.2.2]⟩
    · -- the edge below the new vertex
      obtain rfl : c = j := by
        rcases update_path_iff.mp hc with ⟨hcj, -⟩ | ⟨-, hc⟩
        · exact hcj
        · exact absurd rfl (hold hc)
      rcases update_path_iff.mp hc' with ⟨-, rfl⟩ | ⟨-, hc'⟩
      · exact absurd hcov.right hnew
      · obtain ⟨-, hparent, htoken, hlength⟩ := hbelow c' v hc' hcov
        have hedge' := (h.edge hi hc' hcov).2.2
        have heq : x ++ [a] ++ [(node' c').token] = x ++ [a] ++ [b] :=
          (prefix_of_prefix_length_le htoken hle (by simp)).eq_of_length (by simp)
        refine ⟨hparent, by simpa using heq, ?_⟩
        simp only [length_append, length_cons, length_nil]
        omega
    · -- an old edge
      have hvx : v ≠ x ++ [a] := fun heq => hnew (heq ▸ hcov.right)
      have hwx : w ≠ x ++ [a] := fun heq => hnew (heq ▸ hcov.left)
      have hc := (update_path_iff.mp hc).resolve_left fun hc => hwx hc.2
      have hc' := (update_path_iff.mp hc').resolve_left fun hc => hvx hc.2
      have hold_edge := h.edge hc.2 hc'.2 hcov
      have hsame : SameEdge (node c') (node' c') := by
        by_cases hci : c' = i
        · exact hci ▸ hpar.2
        · refine (hrest c' v hc'.2 hci fun hxv => ?_).toSameEdge
          exact hne (hcov.unique_parent hxv)
      rw [hsame.parent, hsame.token, hsame.length]
      exact hold_edge

/-- A vertex moves one token down, along the edge of its only child or at the end of a leaf. -/
theorem rename (hi : P i = some x)
    (hV : ∀ u, V' u ↔ (V u ∧ u ≠ x) ∨ u = x ++ [a]) (hnew : ¬ V (x ++ [a]))
    (hp : Cover V p e x) (honly : ∀ d u, Cover V x d u → d = a)
    (hedge : (node' i).parent = (node i).parent ∧ (node' i).token = (node i).token ∧
      (node' i).length = (node i).length + 1)
    (hchildren : ∀ b c, (node' i).children.lookup b = some c ↔
      ∃ v, P c = some v ∧ Cover V x a v ∧ x ++ [a] ++ [b] <+: v)
    (hbelow : ∀ c v, P c = some v → Cover V x a v →
      (node' c).children = (node c).children ∧ (node' c).parent = (node c).parent ∧
        x ++ [a] ++ [(node' c).token] <+: v ∧ (node' c).length + 1 = (node c).length)
    (hrest : ∀ c v, P c = some v → c ≠ i → ¬ Cover V x a v → SameShape (node c) (node' c)) :
    Shape root node' V' (Function.update P i (some (x ++ [a]))) := by
  have hold : ∀ {c v}, P c = some v → v ≠ x ++ [a] := by
    rintro c v hc rfl
    exact hnew (h.vertex hc)
  have hne_x : ∀ {c v}, P c = some v → c ≠ i → v ≠ x := by
    rintro c v hc hci rfl
    exact hci (h.inj hc hi)
  have hcover : ∀ {w v : List Key} {b : Key}, Cover V' w b v ↔ _ :=
    @fun w v b => cover_rename_iff (w := w) (v := v) (b := b) hV hp hnew honly
  have hchildren_old : ∀ {c v}, P c = some v → c ≠ i → (node' c).children = (node c).children := by
    intro c v hc hci
    by_cases hcov : Cover V x a v
    · exact (hbelow c v hc hcov).1
    · exact (hrest c v hc hci hcov).children
  have hroot : root ≠ i := by
    rintro rfl
    rw [h.root_path] at hi
    exact hp.ne_nil (by simpa using hi.symm)
  refine ⟨?_, ?_, ?_, ?_, ?_, ?_⟩
  · exact update_path_iff.mpr (.inr ⟨hroot, h.root_path⟩)
  · exact h.inj_update hold
  · intro c w hc
    rcases update_path_iff.mp hc with ⟨-, hw⟩ | ⟨hci, hc⟩
    · exact (hV w).mpr (.inr hw)
    · exact (hV w).mpr (.inl ⟨h.vertex hc, hne_x hc hci⟩)
  · intro w hw
    rcases (hV w).mp hw with ⟨hw, hwx⟩ | hw
    · obtain ⟨c, hc⟩ := h.exists_id hw
      refine ⟨c, update_path_iff.mpr (.inr ⟨?_, hc⟩)⟩
      rintro rfl
      exact hwx (by simpa [hi] using hc.symm)
    · exact ⟨i, update_path_iff.mpr (.inl ⟨rfl, hw⟩)⟩
  · intro c w hc b c'
    rcases update_path_iff.mp hc with ⟨rfl, rfl⟩ | ⟨hci, hc⟩
    · rw [hchildren]
      constructor
      · rintro ⟨v, hv, hcov, hle⟩
        refine ⟨v, update_path_iff.mpr (.inr ⟨?_, hv⟩), hcover.mpr (.inr (.inl ⟨rfl, hcov, hle⟩))⟩
        rintro rfl
        exact hcov.ne (by simpa [hi] using hv)
      · rintro ⟨v, hv, hcov⟩
        rcases hcover.mp hcov with ⟨-, hcov⟩ | ⟨-, hcov, hle⟩ | ⟨hcov, -⟩
        · exact absurd hcov.left hnew
        · rcases update_path_iff.mp hv with ⟨-, rfl⟩ | ⟨-, hv⟩
          · exact absurd hcov.right hnew
          · exact ⟨v, hv, hcov, hle⟩
        · exact absurd hcov.left hnew
    · have hwx : w ≠ x := hne_x hc hci
      rw [hchildren_old hc hci, h.child hc]
      constructor
      · rintro ⟨v, hv, hcov⟩
        by_cases hci' : c' = i
        · subst hci'
          obtain rfl : v = x := by simpa [hi] using hv.symm
          exact ⟨_, update_path_iff.mpr (.inl ⟨rfl, rfl⟩), hcover.mpr (.inl ⟨rfl, hcov⟩)⟩
        · exact ⟨v, update_path_iff.mpr (.inr ⟨hci', hv⟩),
            hcover.mpr (.inr (.inr ⟨hcov, hwx, hne_x hv hci'⟩))⟩
      · rintro ⟨v, hv, hcov⟩
        rcases hcover.mp hcov with ⟨hvx, hwx⟩ | ⟨hw, -⟩ | ⟨hcov, -, -⟩
        · rcases update_path_iff.mp hv with ⟨rfl, -⟩ | ⟨-, hv⟩
          · exact ⟨x, hi, hwx⟩
          · exact absurd hvx (hold hv)
        · exact absurd hw (hold hc)
        · rcases update_path_iff.mp hv with ⟨-, rfl⟩ | ⟨-, hv⟩
          · exact absurd hcov.right hnew
          · exact ⟨v, hv, hcov⟩
  · intro c c' w v b hc hc' hcov
    rcases hcover.mp hcov with ⟨rfl, habove⟩ | ⟨rfl, hcov, hle⟩ | ⟨hcov, hwx, hvx⟩
    · -- the edge above the moved vertex
      obtain rfl : c' = i := by
        rcases update_path_iff.mp hc' with ⟨hci, -⟩ | ⟨-, hc'⟩
        · exact hci
        · exact absurd rfl (hold hc')
      have hc := (update_path_iff.mp hc).resolve_left fun hc => hnew (hc.2 ▸ habove.left)
      obtain ⟨h1, h2, h3⟩ := h.edge hc.2 hi habove
      refine ⟨hedge.1.trans h1, hedge.2.1.trans h2, ?_⟩
      simp only [hedge.2.2, length_append, length_cons, length_nil]
      omega
    · -- the edge below the moved vertex
      obtain rfl : c = i := by
        rcases update_path_iff.mp hc with ⟨hci, -⟩ | ⟨-, hc⟩
        · exact hci
        · exact absurd rfl (hold hc)
      have hc' := (update_path_iff.mp hc').resolve_left fun hc => hnew (hc.2 ▸ hcov.right)
      obtain ⟨-, hparent, htoken, hlength⟩ := hbelow c' v hc'.2 hcov
      have hedge' := h.edge hi hc'.2 hcov
      have heq : x ++ [a] ++ [(node' c').token] = x ++ [a] ++ [b] :=
        (prefix_of_prefix_length_le htoken hle (by simp)).eq_of_length (by simp)
      refine ⟨hparent.trans hedge'.1, by simpa using heq, ?_⟩
      simp only [length_append, length_cons, length_nil]
      omega
    · -- an edge that does not touch it
      have hc := (update_path_iff.mp hc).resolve_left fun hc => hnew (hc.2 ▸ hcov.left)
      have hc' := (update_path_iff.mp hc').resolve_left fun hc => hnew (hc.2 ▸ hcov.right)
      have hsame := hrest c' v hc'.2 hc'.1 fun hxv => hwx (hcov.unique_parent hxv).1
      rw [hsame.parent, hsame.token, hsame.length]
      exact h.edge hc.2 hc'.2 hcov

/-- A vertex is dropped: its children now hang below its parent. -/
theorem erase (hi : P i = some x) (hj : P j = some p)
    (hV : ∀ u, V' u ↔ V u ∧ u ≠ x) (hp : Cover V p e x)
    (hchildren : ∀ b c, (node' j).children.lookup b = some c ↔
      (b = e ∧ ∃ d v, P c = some v ∧ Cover V x d v) ∨
        (b ≠ e ∧ (node j).children.lookup b = some c)) (hpar : SameEdge (node j) (node' j))
    (hbelow : ∀ c v d, P c = some v → Cover V x d v →
      (node' c).children = (node c).children ∧ (node' c).parent = (node i).parent ∧
        (node' c).token = (node i).token ∧ (node' c).length = (node i).length + (node c).length)
    (hrest : ∀ c v, P c = some v → c ≠ i → c ≠ j → (∀ d, ¬ Cover V x d v) →
      SameShape (node c) (node' c)) :
    Shape root node' V' (Function.update P i none) := by
  have hne_x : ∀ {c v}, P c = some v → c ≠ i → v ≠ x := by
    rintro c v hc hci rfl
    exact hci (h.inj hc hi)
  have hne_i : ∀ {c v}, P c = some v → v ≠ x → c ≠ i := by
    rintro c v hc hvx rfl
    exact hvx (by simpa [hi] using hc.symm)
  have hcover : ∀ {w v : List Key} {b : Key}, Cover V' w b v ↔ _ :=
    @fun w v b => cover_erase_iff (w := w) (v := v) (b := b) hV hp
  have hchildren_old : ∀ {c v}, P c = some v → c ≠ i → c ≠ j →
      (node' c).children = (node c).children := by
    intro c v hc hci hcj
    by_cases hcov : ∃ d, Cover V x d v
    · obtain ⟨d, hcov⟩ := hcov
      exact (hbelow c v d hc hcov).1
    · exact (hrest c v hc hci hcj (not_exists.mp hcov)).children
  have honly : ∀ {c v}, P c = some v → Cover V p e v → c = i := by
    intro c v hc hcov
    have h1 := h.child_lookup hj hc hcov
    have h2 := h.child_lookup hj hi hp
    exact Option.some.inj (h1.symm.trans h2)
  refine ⟨?_, ?_, ?_, ?_, ?_, ?_⟩
  · exact drop_path_iff.mpr ⟨hne_i h.root_path hp.ne_nil.symm, h.root_path⟩
  · intro c c' w hc hc'
    exact h.inj (drop_path_iff.mp hc).2 (drop_path_iff.mp hc').2
  · intro c w hc
    obtain ⟨hci, hc⟩ := drop_path_iff.mp hc
    exact (hV w).mpr ⟨h.vertex hc, hne_x hc hci⟩
  · intro w hw
    obtain ⟨hw, hwx⟩ := (hV w).mp hw
    obtain ⟨c, hc⟩ := h.exists_id hw
    exact ⟨c, drop_path_iff.mpr ⟨hne_i hc hwx, hc⟩⟩
  · intro c w hc b c'
    obtain ⟨hci, hc⟩ := drop_path_iff.mp hc
    have hwx : w ≠ x := hne_x hc hci
    by_cases hcj : c = j
    · subst hcj
      obtain rfl : w = p := by simpa [hj] using hc.symm
      rw [hchildren, h.child hc]
      constructor
      · rintro (⟨rfl, d, v, hv, hcov⟩ | ⟨hb, v, hv, hcov⟩)
        · exact ⟨v, drop_path_iff.mpr ⟨hne_i hv hcov.ne.symm, hv⟩,
            hcover.mpr (.inr ⟨rfl, rfl, d, hcov⟩)⟩
        · have hvx : v ≠ x := by
            rintro rfl
            exact hb (hcov.unique_parent hp).2
          exact ⟨v, drop_path_iff.mpr ⟨hne_i hv hvx, hv⟩, hcover.mpr (.inl ⟨hcov, hwx, hvx⟩)⟩
      · rintro ⟨v, hv, hcov⟩
        obtain ⟨hci', hv⟩ := drop_path_iff.mp hv
        rcases hcover.mp hcov with ⟨hcov, -, -⟩ | ⟨-, rfl, d, hcov⟩
        · refine .inr ⟨?_, v, hv, hcov⟩
          rintro rfl
          exact hci' (honly hv hcov)
        · exact .inl ⟨rfl, d, v, hv, hcov⟩
    · rw [hchildren_old hc hci hcj, h.child hc]
      have hwp : w ≠ p := by
        rintro rfl
        exact hcj (h.inj hc hj)
      constructor
      · rintro ⟨v, hv, hcov⟩
        have hvx : v ≠ x := by
          rintro rfl
          exact hwp (hcov.unique_parent hp).1
        exact ⟨v, drop_path_iff.mpr ⟨hne_i hv hvx, hv⟩, hcover.mpr (.inl ⟨hcov, hwx, hvx⟩)⟩
      · rintro ⟨v, hv, hcov⟩
        rcases hcover.mp hcov with ⟨hcov, -, -⟩ | ⟨hw, -⟩
        · exact ⟨v, (drop_path_iff.mp hv).2, hcov⟩
        · exact absurd hw hwp
  · intro c c' w v b hc hc' hcov
    obtain ⟨hci, hc⟩ := drop_path_iff.mp hc
    obtain ⟨hci', hc'⟩ := drop_path_iff.mp hc'
    rcases hcover.mp hcov with ⟨hcov, hwx, hvx⟩ | ⟨rfl, rfl, d, hcov⟩
    · have hnot : ∀ d, ¬ Cover V x d v := fun d hxv => hwx (hcov.unique_parent hxv).1
      have hsame : SameEdge (node c') (node' c') := by
        by_cases hcj : c' = j
        · exact hcj ▸ hpar
        · exact (hrest c' v hc' hci' hcj hnot).toSameEdge
      rw [hsame.parent, hsame.token, hsame.length]
      exact h.edge hc hc' hcov
    · -- the edge that takes over the one above the dropped vertex
      obtain ⟨-, hparent, htoken, hlength⟩ := hbelow c' v d hc' hcov
      obtain ⟨h1, h2, h3⟩ := h.edge hc hi hp
      have h4 := (h.edge hi hc' hcov).2.2
      exact ⟨hparent.trans h1, htoken.trans h2, by omega⟩

end

end Shape

end ArcticPlatform.SuffixTree
