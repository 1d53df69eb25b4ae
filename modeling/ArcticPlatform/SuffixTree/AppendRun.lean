import ArcticPlatform.SuffixTree.Append

/-!
# Suffix tree: append as a whole

Between two calls the family of a tree is determined by its live sequences: the
suffix at `q` is inserted up to `maxDepth` tokens, and the active nodes
of a sequence are the ends of the suffixes that are not yet that long.

Main results:

- Theorem `appendLoop_spec`: the loop extends every active suffix by the new
  token.
- Theorem `append_good`: `append` takes a tree of the live sequences to
  the tree of the sequences with the new token.
- Theorem `init_good`: the empty tree is the tree of no sequence.
-/

namespace ArcticPlatform.SuffixTree

open CompressedTrie StringFamily List

/-- `_active_nodes[seqId]`, which is empty for an unknown id. -/
def State.active (st : State) (seqId : Key) : List NodeId :=
  (st.activeNodes.lookup seqId).getD []

/-- The tree between two calls. -/
structure Good (st : State) (F : Suffixes) (P : Paths) : Prop where
  inv : Inv st F (fun _ => True) P
  keys : ∀ k, k ∈ F.keys ↔ k.2 < (st.seq k.1).length
  str : ∀ k, k ∈ F.keys → F.str k = ((st.seq k.1).drop k.2).take st.maxDepth
  active_length : ∀ t, (st.active t).length = min (st.seq t).length st.maxDepth
  active_path : ∀ t, (st.active t).map P =
    (range' ((st.seq t).length - (st.active t).length) (st.active t).length).map
      fun q => some ((st.seq t).drop q)
  active_live : ∀ t, (st.activeNodes.lookup t).isSome ↔ (st.seqs.lookup t).isSome
  seq_ne_nil : ∀ t, st.seqs.lookup t ≠ some []

/-! ## The loop -/

/-- Effect of the loop over the active suffixes of `s` from `start` on. -/
structure LoopPost (st : State) (F : Suffixes) (P : Paths) (s a : Key) (T : List Key)
    (start : Nat) (r : State × List NodeId) (F' : Suffixes) (P' : Paths) : Prop where
  store : SameStore st r.1
  inv : Inv r.1 F' (fun _ => True) P'
  keys : F'.keys = F.keys
  str_old : ∀ k, k.1 ≠ s ∨ k.2 < start → F'.str k = F.str k
  str_new : ∀ q, start ≤ q → q ≤ T.length → F'.str (s, q) = T.drop q ++ [a]
  path : r.2.map P' = (range' start r.2.length).map fun q => some (T.drop q ++ [a])
  frame : ∀ j k, k ∈ F.keys → k.1 ≠ s ∨ k.2 < start → P j = some (F.str k) → P' j = some (F.str k)

theorem appendLoop_length (s a : Key) (seqLen : Nat) (st : State) (l : List NodeId) :
    (appendLoop s a seqLen st l).2.length = l.length := by
  induction l generalizing st with
  | nil => rfl
  | cons i rest ih => simp [appendLoop, ih]

/-- The tree before the loop reaches the active suffixes of `s` from `start` on, whose nodes are
`l`. -/
structure LoopPre (st : State) (F : Suffixes) (P : Paths) (s a : Key) (T : List Key) (start : Nat)
    (l : List NodeId) : Prop where
  inv : Inv st F (fun _ => True) P
  seq : st.seq s = T ++ [a]
  path : l.map P = (range' start l.length).map fun q => some (T.drop q)
  length : start + l.length = T.length + 1
  mem : ∀ q, start ≤ q → q ≤ T.length → (s, q) ∈ F.keys ∧ F.str (s, q) = T.drop q
  keys : ∀ q, (s, q) ∈ F.keys → q ≤ T.length
  long : ∀ q, q < start → (s, q) ∈ F.keys → T.length - start < (F.str (s, q)).length

section Loop

variable {st st₁ : State} {F : Suffixes} {P P₁ : Paths} {s a : Key} {T : List Key} {start : Nat}
  {i : NodeId} {l rest : List NodeId}

section

variable (h : LoopPre st F P s a T start (i :: rest))
include h

theorem LoopPre.start_le : start ≤ T.length := by
  have hlen := h.length
  simp only [length_cons] at hlen
  omega

theorem LoopPre.paths :
    P i = some (T.drop start) ∧
      rest.map P = (range' (start + 1) rest.length).map fun q => some (T.drop q) := by
  have hpath := h.path
  simpa only [length_cons, range'_succ, map_cons, List.cons.injEq] using hpath

theorem LoopPre.active : ActivePre st F P s a start (T.length + 1) i := by
  have hstart := h.start_le
  obtain ⟨hk, hstr⟩ := h.mem start le_rfl hstart
  refine ⟨h.inv, hk, hstr ▸ h.paths.1, ?_, ?_, ?_⟩
  · rw [h.seq, hstr, drop_append_of_le_length hstart]
  · rw [hstr, length_drop]
    omega
  · intro q hq heq
    have hqlen : (F.str (s, q)).length = T.length - start := by
      rw [heq, hstr, length_drop]
    rcases lt_trichotomy q start with hlt | heq' | hgt
    · have := h.long q hlt hq
      omega
    · exact heq'
    · have hqT := h.keys q hq
      rw [(h.mem q hgt.le hqT).2, length_drop] at hqlen
      omega

/-- Once the first suffix is extended the loop stands before the next one. -/
theorem LoopPre.next (hstore : SameStore st st₁)
    (hinv : Inv st₁ (F.extend (s, start) a) (fun _ => True) P₁)
    (hframe : ∀ j k', k' ∈ F.keys → k' ≠ (s, start) → P j = some (F.str k') →
      P₁ j = some (F.str k')) :
    LoopPre st₁ (F.extend (s, start) a) P₁ s a T (start + 1) rest := by
  have hstart := h.start_le
  have hlen := h.length
  simp only [length_cons] at hlen
  have hrest := h.paths.2
  -- the suffixes that are still to be extended keep their nodes and strings
  have hne : ∀ q, start + 1 ≤ q → (s, q) ≠ (s, start) := by
    intro q hq heq
    have := (Prod.mk.inj heq).2
    omega
  refine ⟨hinv, by rw [hstore.seq, h.seq], ?_, by omega, fun q hq hqT => ?_, h.keys,
    fun q hq hqk => ?_⟩
  · rw [← hrest]
    apply map_congr_left
    intro j hj
    have hPj : P j ∈ rest.map P := mem_map_of_mem hj
    rw [hrest, mem_map] at hPj
    obtain ⟨q, hq, hqj⟩ := hPj
    rw [mem_range'_1] at hq
    obtain ⟨hqk, hqs⟩ := h.mem q (by omega) (by omega)
    rw [← hqj]
    have := hframe j (s, q) hqk (hne q hq.1) (by rw [hqs, hqj])
    rw [this, hqs]
  · obtain ⟨hqk, hqs⟩ := h.mem q (by omega) hqT
    exact ⟨hqk, by rw [extend_str_ne F a (hne q hq), hqs]⟩
  · by_cases hqs : q = start
    · subst hqs
      rw [extend_str_self, (h.mem q le_rfl hstart).2, length_append, length_drop]
      simp only [length_cons, length_nil]
      omega
    · have hlt : q < start := by omega
      rw [extend_str_ne F a fun heq => hqs (Prod.mk.inj heq).2]
      have := h.long q hlt hqk
      omega

end

/-- The loop extends every active suffix by the new token. -/
theorem appendLoop_spec (h : LoopPre st F P s a T start l) :
    ∃ F' P', LoopPost st F P s a T start (appendLoop s a (T.length + 1) st l) F' P' := by
  induction l generalizing st F P start with
  | nil =>
    have hlen := h.length
    simp only [length_nil, add_zero] at hlen
    refine ⟨F, P, SameStore.refl st, h.inv, rfl, fun _ _ => rfl, ?_, rfl, fun _ _ _ _ h => h⟩
    intro q hq hqT
    omega
  | cons i rest ih =>
    obtain ⟨hk, hstr⟩ := h.mem start le_rfl h.start_le
    obtain ⟨hstore, P₁, hinv₁, hi₁, hframe₁⟩ := appendActive_spec h.active
    obtain ⟨F', P', hpost⟩ := ih (h.next hstore hinv₁ hframe₁)
    refine ⟨F', P', hstore.trans hpost.store, hpost.inv, hpost.keys, ?_, ?_, ?_, ?_⟩
    · intro k hkold
      have hkne : k ≠ (s, start) := by
        rintro rfl
        simp at hkold
      rw [hpost.str_old k (hkold.imp id fun h => by omega), extend_str_ne F a hkne]
    · intro q hq hqT
      by_cases hqs : q = start
      · subst hqs
        rw [hpost.str_old (s, q) (.inr (Nat.lt_succ_self q)), extend_str_self, hstr]
      · exact hpost.str_new q (by omega) hqT
    · have hhead := hpost.frame _ (s, start) hk (.inr (Nat.lt_succ_self start))
        (hi₁.trans (by rw [extend_str_self]))
      have htail := hpost.path
      simp only [appendLoop, map_cons, length_cons, range'_succ, List.cons.injEq]
      refine ⟨?_, htail⟩
      rw [hhead, extend_str_self, hstr]
    · intro j k hkk hkold hj
      have hkne : k ≠ (s, start) := by
        rintro rfl
        simp at hkold
      have hj₁ := hframe₁ j k hkk hkne hj
      have := hpost.frame j k hkk (hkold.imp id fun h => by omega)
        (hj₁.trans (by rw [extend_str_ne F a hkne]))
      rw [this, extend_str_ne F a hkne]

end Loop

/-! ## Opening a suffix -/

theorem open_str_ne (F : Suffixes) {k j : Start} (hj : j ≠ k) : (F.open_ k).str j = F.str j := by
  simp [Family.open_, hj]

theorem NodeOK.open_ {seq seq' : Key → List Key} {F : Suffixes} {C : Key → Prop} {n : Node}
    {w : List Key} {k : Start} (h : NodeOK seq F C n w) (hk : k ∉ F.keys) (hw : w ≠ [])
    (hseq : ∀ t, seq t <+: seq' t) : NodeOK seq' (F.open_ k) C n w := by
  have hne : ∀ {j}, j ∈ F.keys → j ≠ k := fun hj heq => hk (heq ▸ hj)
  refine ⟨?_, fun hw => ?_, ?_, ?_⟩
  · rw [h.count, Family.cnt_open hk, if_neg hw, add_zero]
  · refine (h.ref hw).mono hseq fun q hmem hpre => ⟨Finset.mem_insert_of_mem hmem, ?_⟩
    rw [open_str_ne F (hne hmem)]
    exact hpre
  · intro t e he
    obtain ⟨q, hmem, heq, hq⟩ := h.ends t e he
    exact ⟨q, Finset.mem_insert_of_mem hmem, (open_str_ne F (hne hmem)).trans heq, hq⟩
  · intro t q hC hmem heq
    have htq : (t, q) ≠ k := by
      rintro rfl
      simp [Family.open_] at heq
      exact hw heq
    rw [open_str_ne F htq] at heq
    exact h.complete t q hC ((Finset.mem_insert.mp hmem).resolve_left htq) heq

theorem NodeOK.open_root {seq seq' : Key → List Key} {F : Suffixes} {C : Key → Prop} {n n' : Node}
    {s : Key} {start : Nat} (h : NodeOK seq F C n []) (hk : (s, start) ∉ F.keys)
    (hcount : n'.count = n.count + 1) (hends : n'.endpoints = n.endpoints.insert s start) :
    NodeOK seq' (F.open_ (s, start)) C n' [] := by
  have hne : ∀ {j}, j ∈ F.keys → j ≠ (s, start) := fun hj heq => hk (heq ▸ hj)
  refine ⟨?_, fun hw => absurd rfl hw, ?_, ?_⟩
  · rw [hcount, h.count, Family.cnt_open hk, if_pos rfl]
    push_cast
    ring
  · intro t e he
    rw [hends] at he
    by_cases ht : t = s
    · subst ht
      rw [AList.lookup_insert, Option.some.injEq] at he
      exact ⟨start, Finset.mem_insert_self _ _, by simp [Family.open_], by simpa using he⟩
    · rw [AList.lookup_insert_ne ht] at he
      obtain ⟨q, hmem, heq, hq⟩ := h.ends t e he
      exact ⟨q, Finset.mem_insert_of_mem hmem, (open_str_ne F (hne hmem)).trans heq, hq⟩
  · intro t q hC hmem heq
    rw [hends]
    by_cases ht : t = s
    · subst ht
      rw [AList.lookup_insert]
      rfl
    · have htq : (t, q) ≠ (s, start) := fun heq => ht (Prod.mk.inj heq).1
      rw [AList.lookup_insert_ne ht]
      rw [open_str_ne F htq] at heq
      exact h.complete t q hC ((Finset.mem_insert.mp hmem).resolve_left htq) heq

section Open

variable {st : State} {F : Suffixes} {P : Paths} {s a : Key}

theorem appendOpen_seqs : (appendOpen st s a).1.seqs = st.seqs.insert s (st.seq s ++ [a]) := rfl

theorem appendOpen_seq_self : (appendOpen st s a).1.seq s = st.seq s ++ [a] := by
  simp [State.seq, appendOpen_seqs]

theorem appendOpen_seq_ne {t : Key} (ht : t ≠ s) : (appendOpen st s a).1.seq t = st.seq t := by
  simp [State.seq, appendOpen_seqs, AList.lookup_insert_ne ht]

theorem appendOpen_seq_prefix (t : Key) : st.seq t <+: (appendOpen st s a).1.seq t := by
  by_cases ht : t = s
  · subst ht
    rw [appendOpen_seq_self]
    exact prefix_append _ _
  · rw [appendOpen_seq_ne ht]

/-- Opening the suffix at the end of a sequence keeps the invariant. -/
theorem appendOpen_inv (h : Good st F P) :
    Inv (appendOpen st s a).1 (F.open_ (s, (st.seq s).length)) (fun _ => True) P := by
  have hk : (s, (st.seq s).length) ∉ F.keys := by
    rw [h.keys]
    exact lt_irrefl _
  have hroot : (appendOpen st s a).1.node st.root = { st.node st.root with
        endpoints := (st.node st.root).endpoints.insert s (st.seq s).length
        count := (st.node st.root).count + 1 } := by
    simp [appendOpen, State.setNode]
  have hother : ∀ i, i ≠ st.root → (appendOpen st s a).1.node i = st.node i := by
    intro i hi
    simp [appendOpen, State.setNode, hi]
  refine ⟨?_, h.inv.fresh, ?_, ?_, ?_⟩
  · refine h.inv.shape.congr (vertex_open_iff hk) fun i w _ => ?_
    by_cases hi : i = st.root
    · subst hi
      rw [hroot]
      exact ⟨⟨rfl, rfl, rfl⟩, rfl⟩
    · rw [hother i hi]
      exact SameShape.refl _
  · exact (congrArg Node.length hroot).trans h.inv.root_length
  · intro i w hi
    by_cases hir : i = st.root
    · subst hir
      obtain rfl : w = [] := by simpa [h.inv.shape.root_path] using hi.symm
      rw [hroot]
      exact (h.inv.node hi).open_root hk rfl rfl
    · rw [hother i hir]
      exact (h.inv.node hi).open_ hk ((h.inv.shape.ne_root hi).mp hir) appendOpen_seq_prefix
  · intro k hmem
    by_cases hkn : k = (s, (st.seq s).length)
    · subst hkn
      simp [Family.open_]
    · rw [open_str_ne F hkn]
      have hold := h.inv.strings k ((Finset.mem_insert.mp hmem).resolve_left hkn)
      obtain ⟨u, hu⟩ := appendOpen_seq_prefix k.1
      rw [← hu, drop_append]
      exact hold.trans (prefix_append _ _)

/-- The active nodes with the root added and, beyond `maxDepth` of them, the oldest dropped. -/
theorem appendOpen_active (h : Good st F P) :
    (appendOpen st s a).2.length = min ((st.seq s).length + 1) st.maxDepth ∧
      (appendOpen st s a).2.map P = (range' ((st.seq s).length + 1 - (appendOpen st s a).2.length)
          (appendOpen st s a).2.length).map fun q => some ((st.seq s).drop q) := by
  have hlen := h.active_length s
  have hpath := h.active_path s
  generalize hl : st.active s = l at hlen hpath
  generalize hT : st.seq s = T at hlen hpath
  have hall : (l ++ [st.root]).map P =
      (range' (T.length - l.length) (l.length + 1)).map fun q => some (T.drop q) := by
    have hlast : T.length - l.length + l.length = T.length := by omega
    rw [range'_concat, map_append, map_append, hpath]
    simp [h.inv.shape.root_path, hlast]
  have hactive : (appendOpen st s a).2 =
      if st.maxDepth < l.length + 1 then (l ++ [st.root]).tail else l ++ [st.root] := by
    simp only [appendOpen, ← hl, State.active, State.setNode, length_append,
      length_cons, length_nil, zero_add]
  rw [hactive]
  split_ifs with hlt
  · have htail : (l ++ [st.root]).tail.length = l.length := by simp
    refine ⟨by rw [htail]; omega, ?_⟩
    rw [map_tail, hall, htail, ← map_tail, range'_succ, tail_cons]
    congr 2
    omega
  · have hfull : (l ++ [st.root]).length = l.length + 1 := by simp
    refine ⟨by rw [hfull]; omega, ?_⟩
    rw [hall, hfull]
    congr 2
    omega

end Open

/-! ## Append -/

section Append

variable {st : State} {F : Suffixes} {P : Paths} {s a : Key}

theorem Good.str_eq_drop (h : Good st F P) {t : Key} {q : Nat} (hmem : (t, q) ∈ F.keys)
    (hq : (st.seq t).length ≤ q + st.maxDepth) : F.str (t, q) = (st.seq t).drop q := by
  rw [h.str _ hmem]
  apply take_of_length_le
  rw [length_drop]
  simp only
  omega

theorem Good.active_start (h : Good st F P) {t : Key} {j : NodeId} (hj : j ∈ st.active t) :
    ∃ q, (t, q) ∈ F.keys ∧ F.str (t, q) = (st.seq t).drop q ∧ P j = some ((st.seq t).drop q) := by
  have hPj : P j ∈ (st.active t).map P := mem_map_of_mem hj
  rw [h.active_path t, mem_map] at hPj
  obtain ⟨q, hq, hqj⟩ := hPj
  rw [mem_range'_1] at hq
  have hlen := h.active_length t
  have hmem : (t, q) ∈ F.keys := (h.keys _).mpr (by simp only; omega)
  exact ⟨q, hmem, h.str_eq_drop hmem (by omega), hqj.symm⟩

theorem Good.open_keys (h : Good st F P) (s a : Key) (k : Start) :
    k ∈ (F.open_ (s, (st.seq s).length)).keys ↔ k.2 < ((appendOpen st s a).1.seq k.1).length := by
  obtain ⟨t, q⟩ := k
  simp only [Family.open_, Finset.mem_insert, h.keys, Prod.mk.injEq]
  by_cases ht : t = s
  · subst ht
    simp only [true_and, appendOpen_seq_self, length_append, length_cons, length_nil]
    omega
  · simp [ht, appendOpen_seq_ne ht]

theorem Good.open_long (h : Good st F P) (hdepth : 1 ≤ st.maxDepth) {q : Nat}
    (hq : q + st.maxDepth ≤ (st.seq s).length) :
    (F.open_ (s, (st.seq s).length)).str (s, q) = ((st.seq s).drop q).take st.maxDepth := by
  have hmem : (s, q) ∈ F.keys := (h.keys _).mpr (by simp only; omega)
  rw [open_str_ne F fun heq => by have := (Prod.mk.inj heq).2; omega, h.str _ hmem]

theorem Good.loopPre (h : Good st F P) (hdepth : 1 ≤ st.maxDepth) (s a : Key) :
    LoopPre (appendOpen st s a).1 (F.open_ (s, (st.seq s).length)) P s a (st.seq s)
      ((st.seq s).length + 1 - (appendOpen st s a).2.length) (appendOpen st s a).2 := by
  obtain ⟨hlen, hpath⟩ := appendOpen_active (s := s) (a := a) h
  refine ⟨appendOpen_inv h, appendOpen_seq_self, hpath, by omega, fun q hq hqT => ⟨?_, ?_⟩,
    fun q hq => ?_, fun q hq hqk => ?_⟩
  · rw [h.open_keys s a, appendOpen_seq_self, length_append]
    simp only [length_cons, length_nil]
    omega
  · by_cases hqn : q = (st.seq s).length
    · subst hqn
      simp [Family.open_]
    · have hmem : (s, q) ∈ F.keys := (h.keys _).mpr (by simp only; omega)
      rw [open_str_ne F fun heq => hqn (Prod.mk.inj heq).2, h.str_eq_drop hmem (by omega)]
  · have := (h.open_keys s a _).mp hq
    rw [appendOpen_seq_self, length_append] at this
    simp only [length_cons, length_nil] at this
    omega
  · rw [h.open_long hdepth (by omega), length_take, length_drop]
    omega

theorem append_eq (st : State) (s a : Key) :
    append st s a =
      { (appendLoop s a ((st.seq s).length + 1) (appendOpen st s a).1 (appendOpen st s a).2).1 with
        activeNodes :=
          (appendLoop s a ((st.seq s).length + 1) (appendOpen st s a).1
            (appendOpen st s a).2).1.activeNodes.insert s
            (appendLoop s a ((st.seq s).length + 1) (appendOpen st s a).1
              (appendOpen st s a).2).2 } := by
  simp only [append, appendOpen_seq_self, length_append, length_cons, length_nil, zero_add]

/-- `append` takes a tree of the live sequences to the tree of the longer sequences. -/
theorem append_good (h : Good st F P) (hdepth : 1 ≤ st.maxDepth) (s a : Key) :
    (append st s a).maxDepth = st.maxDepth ∧
      (append st s a).seqs = st.seqs.insert s (st.seq s ++ [a]) ∧
      ∃ F' P', Good (append st s a) F' P' := by
  obtain ⟨hlen, -⟩ := appendOpen_active (s := s) (a := a) h
  have hopen_keys := h.open_keys s a
  obtain ⟨F', P', hpost⟩ := appendLoop_spec (h.loopPre hdepth s a)
  set r := appendLoop s a ((st.seq s).length + 1) (appendOpen st s a).1 (appendOpen st s a).2
    with hr
  have hrlen : r.2.length = (appendOpen st s a).2.length := appendLoop_length _ _ _ _ _
  have happend : append st s a = { r.1 with activeNodes := r.1.activeNodes.insert s r.2 } :=
    append_eq st s a
  have hseqs : (append st s a).seqs = st.seqs.insert s (st.seq s ++ [a]) := by
    rw [happend]
    exact hpost.store.seqs.trans appendOpen_seqs
  have hdepth' : (append st s a).maxDepth = st.maxDepth := by
    rw [happend]
    exact hpost.store.maxDepth
  have hseq_self : (append st s a).seq s = st.seq s ++ [a] := by
    simp [State.seq, hseqs]
  have hseq_ne : ∀ {t}, t ≠ s → (append st s a).seq t = st.seq t := by
    intro t ht
    simp [State.seq, hseqs, AList.lookup_insert_ne ht]
  have hactive_self : (append st s a).active s = r.2 := by
    simp [State.active, happend]
  have hactive_lookup : ∀ {t}, t ≠ s →
      (append st s a).activeNodes.lookup t = st.activeNodes.lookup t := by
    intro t ht
    rw [happend]
    simp only [AList.lookup_insert_ne ht]
    rw [hpost.store.activeNodes]
    rfl
  have hactive_ne : ∀ {t}, t ≠ s → (append st s a).active t = st.active t := by
    intro t ht
    simp only [State.active, hactive_lookup ht]
  refine ⟨hdepth', hseqs, F', P', ?_, ?_, ?_, ?_, ?_, ?_, ?_⟩
  · have hinv := hpost.inv
    rw [happend]
    exact ⟨hinv.shape, hinv.fresh, hinv.root_length, hinv.node, hinv.strings⟩
  · rintro ⟨t, q⟩
    rw [hpost.keys, hopen_keys]
    by_cases ht : t = s
    · subst ht
      rw [hseq_self, appendOpen_seq_self]
    · rw [hseq_ne ht, appendOpen_seq_ne ht]
  · rintro ⟨t, q⟩ hmem
    rw [hpost.keys] at hmem
    simp only [hdepth']
    by_cases ht : t = s
    · subst ht
      rw [hseq_self]
      have hqT : q ≤ (st.seq t).length := by
        have := (hopen_keys _).mp hmem
        rw [appendOpen_seq_self, length_append] at this
        simp only [length_cons, length_nil] at this
        omega
      by_cases hq : (st.seq t).length < q + st.maxDepth
      · rw [hpost.str_new q (by omega) hqT, drop_append_of_le_length hqT]
        symm
        apply take_of_length_le
        simp only [length_append, length_drop, length_cons, length_nil]
        omega
      · rw [hpost.str_old _ (.inr (by simp only; omega)), h.open_long hdepth (by omega),
          drop_append_of_le_length hqT, take_append_of_le_length]
        rw [length_drop]
        omega
    · have hmem' : (t, q) ∈ F.keys :=
        (Finset.mem_insert.mp hmem).resolve_left fun heq => ht (Prod.mk.inj heq).1
      rw [hpost.str_old _ (.inl ht), open_str_ne F fun heq => ht (Prod.mk.inj heq).1,
        h.str _ hmem', hseq_ne ht]
  · intro t
    rw [hdepth']
    by_cases ht : t = s
    · subst ht
      rw [hactive_self, hseq_self, hrlen, hlen]
      simp
    · rw [hactive_ne ht, hseq_ne ht]
      exact h.active_length t
  · intro t
    by_cases ht : t = s
    · subst ht
      rw [hactive_self, hseq_self, hpost.path, hrlen, length_append]
      apply map_congr_left
      intro q hq
      rw [mem_range'_1] at hq
      rw [drop_append_of_le_length (by omega)]
    · rw [hactive_ne ht, hseq_ne ht, ← h.active_path t]
      apply map_congr_left
      intro j hj
      obtain ⟨q, hmem, hstr, hPj⟩ := h.active_start hj
      have hne : (t, q) ≠ (s, (st.seq s).length) := fun heq => ht (Prod.mk.inj heq).1
      rw [← open_str_ne F hne] at hstr
      have := hpost.frame j (t, q) (Finset.mem_insert_of_mem hmem) (.inl ht)
        (by rw [hstr, hPj])
      rw [this, hstr, hPj]
  · intro t
    rw [hseqs]
    by_cases ht : t = s
    · subst ht
      simp [happend]
    · rw [AList.lookup_insert_ne ht, hactive_lookup ht]
      exact h.active_live t
  · intro t
    rw [hseqs]
    by_cases ht : t = s
    · subst ht
      simp
    · rw [AList.lookup_insert_ne ht]
      exact h.seq_ne_nil t

/-- The empty tree is the tree of no sequence. -/
theorem init_good (maxDepth : Nat) : ∃ F P, Good (init maxDepth) F P := by
  refine ⟨⟨∅, fun _ => []⟩, fun i => if i = 0 then some [] else none, ?_⟩
  have hcnt : ∀ w, Family.cnt (⟨∅, fun _ => []⟩ : Suffixes) w = 0 := by
    intro w
    simp [Family.cnt]
  have hvertex : ∀ u, Vertex (⟨∅, fun _ => []⟩ : Suffixes) u ↔ u = [] := by
    intro u
    simp [Vertex, Family.IsNode, hcnt]
  have hpath : ∀ {i : NodeId} {w : List Key}, (if i = 0 then some [] else none) = some w ↔
      i = 0 ∧ w = [] := by
    intro i w
    split_ifs with hi <;> simp [hi, eq_comm]
  have hcover : ∀ {w v : List Key} {b : Key},
      ¬ Cover (Vertex (⟨∅, fun _ => []⟩ : Suffixes)) w b v := by
    intro w v b hcov
    exact hcov.ne_nil ((hvertex v).mp hcov.right)
  have hseq : ∀ t, (init maxDepth).seq t = [] := by
    intro t
    simp [State.seq, init]
  have hactive : ∀ t, (init maxDepth).active t = [] := by
    intro t
    simp [State.active, init]
  refine ⟨⟨⟨?_, ?_, ?_, ?_, ?_, ?_⟩, ?_, rfl, ?_, ?_⟩, ?_, ?_, ?_, ?_, ?_, ?_⟩
  · exact hpath.mpr ⟨rfl, rfl⟩
  · intro i j w hi hj
    exact (hpath.mp hi).1.trans (hpath.mp hj).1.symm
  · intro i w hi
    exact (hvertex w).mpr (hpath.mp hi).2
  · intro w hw
    exact ⟨0, hpath.mpr ⟨rfl, (hvertex w).mp hw⟩⟩
  · intro i w _ b c
    refine iff_of_false (by simp [init]) ?_
    rintro ⟨v, -, hcov⟩
    exact hcover hcov
  · intro i c w v b _ _ hcov
    exact absurd hcov hcover
  · intro i w hi
    rw [(hpath.mp hi).1]
    exact zero_lt_one
  · intro i w hi
    obtain ⟨-, rfl⟩ := hpath.mp hi
    exact ⟨by simp [init, hcnt], fun hw => absurd rfl hw, by simp [init], by simp⟩
  · intro k hk
    simp at hk
  · intro k
    simp [hseq]
  · intro k hk
    simp at hk
  · intro t
    simp [hactive, hseq]
  · intro t
    simp [hactive]
  · intro t
    simp [init]
  · intro t
    simp [init]

end Append

end ArcticPlatform.SuffixTree
