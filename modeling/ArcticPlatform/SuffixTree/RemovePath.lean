import ArcticPlatform.SuffixTree.Invariant

/-!
# Suffix tree: paths, leaves and references

The parts of `remove` that only read the structure of the tree: the visited
path from the root to a node, the descent to a leaf, and the loop that redirects
the references along the path.

Main results:

- Theorem `PathUp.exists_mem`: a path visits every vertex above its end.
- Theorem `descend_spec`: the descent ends at a leaf below its start, at the
  distance that it reports, whatever the order of the hash tables.
- Theorem `repairRefs_spec`: the loop redirects exactly the references to the
  removed sequence, each to the part of the new sequence where its string ends.
-/

namespace ArcticPlatform.SuffixTree

open CompressedTrie StringFamily List

/-! ## First entries of a map -/

section Maps

variable {β : Type} {m : Int32Map β} {pick : List Key → Nat} {d : Key} {c : β}

theorem lookup_of_begin (h : Int32Map.begin pick m = some (d, c)) : m.lookup d = some c := by
  unfold Int32Map.begin at h
  rw [Option.map_eq_some_iff] at h
  obtain ⟨e, he, hde⟩ := h
  obtain ⟨rfl, rfl⟩ := Prod.mk.inj hde
  exact AList.mem_lookup_iff.mpr (mem_of_getElem? he)

theorem lookup_of_begin_eq_none (h : Int32Map.begin pick m = none) (b : Key) :
    m.lookup b = none := by
  unfold Int32Map.begin at h
  rw [Option.map_eq_none_iff, List.getElem?_eq_none_iff] at h
  have hnil : m.entries = [] := by
    by_contra hne
    have := Nat.mod_lt (pick m.keys) (length_pos_iff.mpr hne)
    omega
  rw [Option.eq_none_iff_forall_ne_some]
  intro c hc
  have := AList.mem_lookup_iff.mp hc
  simp [hnil] at this

theorem entries_eq_singleton_iff :
    m.entries = [⟨d, c⟩] ↔ ∀ b c', m.lookup b = some c' ↔ b = d ∧ c' = c := by
  constructor
  · intro h b c'
    have hmem : m.lookup b = some c' ↔ (⟨b, c'⟩ : Sigma fun _ : Key => β) ∈ m.entries :=
      AList.mem_lookup_iff
    rw [hmem, h, mem_singleton, Sigma.mk.injEq, heq_eq_eq]
  · intro h
    have hall : ∀ e ∈ m.entries, e = ⟨d, c⟩ := by
      rintro ⟨b, c'⟩ he
      obtain ⟨rfl, rfl⟩ := (h b c').mp (AList.mem_lookup_iff.mpr he)
      rfl
    have hmem : (⟨d, c⟩ : Sigma fun _ : Key => β) ∈ m.entries :=
      AList.mem_lookup_iff.mp ((h d c).mpr ⟨rfl, rfl⟩)
    have hnodup := m.nodupKeys.nodup
    match hentries : m.entries with
    | [] => simp [hentries] at hmem
    | [e] =>
      rw [hentries] at hall
      rw [hall e (mem_singleton_self e)]
    | e :: e' :: rest =>
      rw [hentries] at hall hnodup
      have h1 := hall e (by simp)
      have h2 := hall e' (by simp)
      simp [h1, h2] at hnodup

end Maps

/-! ## Paths from the root -/

/-- The visited nodes, deepest first, from the vertex `w` up to a child of the root. -/
inductive PathUp (V : List Key → Prop) (P : Paths) : List NodeId → List Key → Prop
  | root : PathUp V P [] []
  | node {i : NodeId} {rest : List NodeId} {p w : List Key} {b : Key} (hrest : PathUp V P rest p)
      (hi : P i = some w) (hcov : Cover V p b w) : PathUp V P (i :: rest) w

namespace PathUp

variable {V V' : List Key → Prop} {P P' : Paths} {l : List NodeId} {w u : List Key} {i : NodeId}

theorem prefix_of_mem (h : PathUp V P l w) (hi : i ∈ l) (hu : P i = some u) : u <+: w := by
  induction h with
  | root => simp at hi
  | node hrest hj hcov ih =>
    rcases mem_cons.mp hi with rfl | hi
    · rw [hj, Option.some.injEq] at hu
      rw [hu]
    · exact (ih hi).trans hcov.isPrefix

/-- A path visits every vertex above its end. -/
theorem exists_mem (h : PathUp V P l w) (hu : V u) (hle : u <+: w) (hne : u ≠ []) :
    ∃ i ∈ l, P i = some u := by
  induction h with
  | root => exact absurd (prefix_nil.mp hle) hne
  | @node i rest p w b hrest hi hcov ih =>
    rcases prefix_or_concat_prefix hle hcov.le with hup | hdown
    · obtain ⟨j, hj, hju⟩ := ih hup
      exact ⟨j, mem_cons_of_mem i hj, hju⟩
    · rw [hcov.min u hu hdown hle]
      exact ⟨i, mem_cons_self, hi⟩

theorem mono (h : PathUp V P l w) (hpath : ∀ i u, P i = some u → u <+: w → P' i = some u)
    (hcover : ∀ p b u, u <+: w → Cover V p b u → Cover V' p b u) : PathUp V' P' l w := by
  induction h with
  | root => exact PathUp.root
  | @node i rest p w b hrest hi hcov ih =>
    have hle := hcov.isPrefix
    refine PathUp.node (ih ?_ ?_) (hpath i w hi (prefix_refl w))
      (hcover p b w (prefix_refl w) hcov)
    · exact fun j u hj hu => hpath j u hj (hu.trans hle)
    · exact fun p b u hu => hcover p b u (hu.trans hle)

theorem exists_tail (h : PathUp V P l w) (hne : w ≠ []) :
    ∃ i rest p b, l = i :: rest ∧ P i = some w ∧ Cover V p b w ∧ PathUp V P rest p := by
  cases h with
  | root => exact absurd rfl hne
  | @node i rest p _ b hrest hi hcov => exact ⟨i, rest, p, b, rfl, hi, hcov, hrest⟩

end PathUp

/-! ## Descent to a leaf -/

/-- The descent ends at a leaf below its start. -/
theorem descend_spec {st : State} {V : List Key → Prop} {P : Paths} {maxDepth : Nat}
    (hshape : Shape st.root st.node V P) (hdepth : ∀ u, V u → u.length ≤ maxDepth)
    (layout : Nat → List Key → Nat) :
    ∀ (fuel : Nat) (i : NodeId) (w : List Key) (distance : Nat), P i = some w →
      maxDepth ≤ w.length + fuel →
      ∃ v added, (descend layout st fuel i distance).2 = distance + added ∧
        P (descend layout st fuel i distance).1 = some v ∧ w <+: v ∧
        v.length = w.length + added ∧ ∀ b u, ¬ Cover V v b u := by
  intro fuel
  induction fuel with
  | zero =>
    intro i w distance hi hfuel
    refine ⟨w, 0, rfl, hi, prefix_refl w, rfl, fun b u hcov => ?_⟩
    have h1 := hdepth u hcov.right
    have h2 := hcov.length_lt
    omega
  | succ fuel ih =>
    intro i w distance hi hfuel
    cases hbegin : Int32Map.begin (layout fuel) (st.node i).children with
    | none =>
      refine ⟨w, 0, ?_, ?_, prefix_refl w, rfl, fun b u hcov => ?_⟩
      · simp [descend, hbegin]
      · simpa [descend, hbegin] using hi
      · obtain ⟨c, hc⟩ := hshape.exists_id hcov.right
        have hsome := hshape.child_lookup hi hc hcov
        rw [lookup_of_begin_eq_none hbegin] at hsome
        simp at hsome
    | some entry =>
      obtain ⟨b, c⟩ := entry
      obtain ⟨u, hc, hcov⟩ := (hshape.child hi b c).mp (lookup_of_begin hbegin)
      have hedge := (hshape.edge hi hc hcov).2.2
      have hlt := hcov.length_lt
      obtain ⟨v, added, h1, h2, h3, h4, h5⟩ := ih c u (distance + (st.node c).length) hc (by omega)
      refine ⟨v, (st.node c).length + added, ?_, ?_, hcov.isPrefix.trans h3, by omega, h5⟩
      · simp only [descend, hbegin, h1]
        omega
      · simpa only [descend, hbegin] using h2

/-! ## Redirected references -/

/-- The node with its reference to `s` redirected to the tokens of `t` that end at `endIdx`. -/
def redirect (s t : Key) (endIdx : Int) (n : Node) : Node :=
  if n.refSeq = s then { n with refSeq := t, refIdx := endIdx - n.length } else n

/-- The loop redirects the references of the nodes of a path, and nothing else. -/
theorem repairRefs_spec {V : List Key → Prop} {P : Paths} {s t : Key} {q : Int}
    {l : List NodeId} {w : List Key} (hpath : PathUp V P l w) {st : State}
    (hshape : Shape st.root st.node V P) :
    SameStore st (repairRefs s t l (q + w.length) st) ∧
      (repairRefs s t l (q + w.length) st).nextNode = st.nextNode ∧
      (∀ i, i ∉ l → (repairRefs s t l (q + w.length) st).node i = st.node i) ∧
      ∀ i u, i ∈ l → P i = some u →
        (repairRefs s t l (q + w.length) st).node i = redirect s t (q + u.length) (st.node i) := by
  induction hpath generalizing st with
  | root => exact ⟨SameStore.refl st, rfl, fun _ _ => rfl, fun i u hi => by simp at hi⟩
  | @node i rest p w b hrest hi hcov ih =>
    obtain ⟨j, hj⟩ := hshape.exists_id hcov.left
    have hedge := (hshape.edge hj hi hcov).2.2
    have hidx : q + (w.length : Int) - ((st.node i).length : Int) = q + p.length := by omega
    have hnot : i ∉ rest := by
      intro hmem
      have h1 := (hrest.prefix_of_mem hmem hi).length_le
      have h2 := hcov.length_lt
      omega
    -- the state in which the rest of the path is processed
    let st₁ := if (st.node i).refSeq = s then
      st.setNode i { st.node i with refSeq := t, refIdx := q + p.length } else st
    have hst₁ : repairRefs s t (i :: rest) (q + w.length) st =
        repairRefs s t rest (q + p.length) st₁ := by
      simp only [repairRefs, hidx, st₁]
    have hstore₁ : SameStore st st₁ := by
      simp only [st₁]
      split <;> exact ⟨rfl, rfl, rfl, rfl⟩
    have hnext₁ : st₁.nextNode = st.nextNode := by
      simp only [st₁]
      split <;> rfl
    have hself₁ : st₁.node i = redirect s t (q + w.length) (st.node i) := by
      simp only [st₁, redirect, hidx]
      split <;> simp [State.setNode]
    have hother₁ : ∀ c, c ≠ i → st₁.node c = st.node c := by
      intro c hc
      simp only [st₁]
      split <;> simp [State.setNode, hc]
    have hshape₁ : Shape st₁.root st₁.node V P := by
      rw [hstore₁.root]
      refine hshape.congr (fun _ => Iff.rfl) fun c u _ => ?_
      by_cases hc : c = i
      · subst hc
        rw [hself₁]
        unfold redirect
        split <;> exact ⟨⟨rfl, rfl, rfl⟩, rfl⟩
      · rw [hother₁ c hc]
        exact SameShape.refl _
    obtain ⟨h1, h2, h3, h4⟩ := ih hshape₁
    rw [hst₁]
    refine ⟨hstore₁.trans h1, h2.trans hnext₁, ?_, ?_⟩
    · intro c hc
      rw [mem_cons, not_or] at hc
      rw [h3 c hc.2, hother₁ c hc.1]
    · intro c u hc hu
      by_cases hci : c = i
      · subst hci
        obtain rfl : u = w := by simpa [hi] using hu.symm
        rw [h3 c hnot, hself₁]
      · have hmem := (mem_cons.mp hc).resolve_left hci
        rw [h4 c u hmem hu, hother₁ c hci]

end ArcticPlatform.SuffixTree
