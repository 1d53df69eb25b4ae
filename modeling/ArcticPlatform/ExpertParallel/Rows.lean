import ArcticPlatform.ExpertParallel.Model

/-!
# Rows that are packed by expert

Rows sorted by the expert of their routing entry reach their expert through the counts,
and the sum over a token's rows does not depend on the order of the rows.

Main results:

- Theorem `runExperts_argsort`: every row meets the expert of its entry.
- Theorem `sumRowsByToken_map`: the sums of the tokens.
- Theorem `forward_eq`: the layer without expert parallelism.
-/

namespace ArcticPlatform.ExpertParallel

open Scatter Slices StableSort List

variable {V R : Type} [CommRing R] [AddCommGroup V] [Module R V]

/-! ## Experts -/

variable {ids : List Nat} {n : Nat}

omit [CommRing R] [Module R V] in
/-- Rows in the order of their keys meet the expert of their key. -/
theorem runExperts_argsort (f : Nat → V → V) (hids : ∀ k ∈ ids, k < n) (g : Nat → V) :
    runExperts f ((argsort ids).map g) ((range n).map fun e => ids.count e) =
      some ((argsort ids).map fun p => f (ids.getD p 0) (g p)) := by
  set segments := (range n).map fun e => (positions ids e).map g with hsegments
  have hrows : (argsort ids).map g = segments.flatten := by
    rw [argsort_eq hids, map_flatMap, flatMap_def]
  have hcounts : ((range n).map fun e => ids.count e) = segments.map List.length := by
    rw [hsegments, map_map]
    apply map_congr_left
    intro e _
    simp [length_positions]
  have hsum : segments.flatten.length = (segments.map List.length).sum := List.length_flatten
  have hsplits : (segments.zipIdx.map fun entry => entry.1.map (f entry.2)).flatten =
      (argsort ids).map fun p => f (ids.getD p 0) (g p) := by
    have hzip : segments.zipIdx.map (fun entry => entry.1.map (f entry.2)) =
        (range n).map fun e => (positions ids e).map fun p => f (ids.getD p 0) (g p) := by
      apply ext_getElem?
      intro e
      by_cases he : e < n
      · simp only [hsegments, getElem?_map, getElem?_zipIdx, getElem?_range he,
          Option.map_some, map_map, zero_add]
        congr 1
        apply map_congr_left
        intro p hp
        rw [(mem_positions.mp hp).2]
        rfl
      · simp [hsegments, he]
    rw [hzip, argsort_eq hids, map_flatMap, flatMap_def]
  rw [runExperts, hrows, hcounts, ← hsum, if_neg (lt_irrefl _), take_length, splitSizes_flatten]
  simp [hsplits]

theorem applyRoutingWeights_map {ι : Type} (l : List ι) (a : ι → V) (s : ι → R) :
    applyRoutingWeights (l.map a) (l.map s) = l.map fun i => s i • a i := by
  rw [applyRoutingWeights, zipWith_map, zipWith_self]

theorem groupedExperts_argsort (f : Nat → V → V) (hids : ∀ k ∈ ids, k < n) (g : Nat → V)
    (s : Nat → R) :
    groupedExperts f ((argsort ids).map g) ((range n).map fun e => ids.count e)
        (none : Option (List R)) = some ((argsort ids).map fun p => f (ids.getD p 0) (g p)) ∧
      groupedExperts f ((argsort ids).map g) ((range n).map fun e => ids.count e)
        (some ((argsort ids).map s)) =
        some ((argsort ids).map fun p => s p • f (ids.getD p 0) (g p)) := by
  constructor
  · rw [groupedExperts, runExperts_argsort f hids]
    rfl
  · rw [groupedExperts, runExperts_argsort f hids, Option.map_some]
    exact congrArg some (applyRoutingWeights_map _ _ _)

/-! ## Sums -/

theorem map_argsort_getD {keys : List Nat} (hkeys : ∀ k ∈ keys, k < n) :
    ((argsort keys).map fun i => keys.getD i 0) =
      (range n).flatMap fun t => replicate (positions keys t).length t := by
  rw [argsort_eq hkeys, map_flatMap]
  apply flatMap_congr
  intro t _
  rw [eq_replicate_iff]
  refine ⟨length_map _, ?_⟩
  intro k hk
  obtain ⟨p, hp, rfl⟩ := mem_map.mp hk
  exact (mem_positions.mp hp).2

theorem takeWhile_eq_nil {l : List Nat} {P : Nat → Bool} (h : ∀ k ∈ l, P k = false) :
    l.takeWhile P = [] := by
  cases l with
  | nil => rfl
  | cons k l => rw [takeWhile_cons, h k mem_cons_self, if_neg Bool.false_ne_true]

theorem searchsorted_argsort {keys : List Nat} {n t : Nat} (hkeys : ∀ k ∈ keys, k < n)
    (ht : t ≤ n) :
    searchsorted ((argsort keys).map fun i => keys.getD i 0) t =
      (((range n).map fun u => (positions keys u).length).take t).sum := by
  obtain ⟨m, rfl⟩ := Nat.exists_eq_add_of_le ht
  have hbelow : ∀ k ∈ (range t).flatMap (fun u => replicate (positions keys u).length u),
      decide (k < t) = true := by
    intro k hk
    obtain ⟨u, hu, hk⟩ := mem_flatMap.mp hk
    rw [eq_of_mem_replicate hk]
    simpa using hu
  have habove : (((range m).map (t + ·)).flatMap fun u =>
      replicate (positions keys u).length u).takeWhile (· < t) = [] := by
    apply takeWhile_eq_nil
    intro k hk
    obtain ⟨u, hu, hk⟩ := mem_flatMap.mp hk
    obtain ⟨v, -, rfl⟩ := mem_map.mp hu
    rw [eq_of_mem_replicate hk]
    simp
  rw [searchsorted, map_argsort_getD hkeys, range_add, flatMap_append,
    takeWhile_append_of_pos hbelow, habove, append_nil, map_append,
    take_left' (by simp), length_flatMap]
  simp

theorem sumRowsByToken_eq (rows : List V) {tokens : List Nat} (htokens : ∀ t ∈ tokens, t < n) :
    sumRowsByToken rows tokens n =
      (range n).map fun t => ((positions tokens t).map fun p => rows.getD p 0).sum := by
  set lens := (range n).map fun t => (positions tokens t).length with hlens
  have hlength : lens.length = n := by simp [hlens]
  have hbags : argsort tokens = ((range n).map (positions tokens)).flatten := by
    rw [argsort_eq htokens, flatMap_def]
  have hlens' : ((range n).map (positions tokens)).map List.length = lens := by
    rw [hlens, map_map]
    rfl
  have hstarts : ∀ t, t ≤ n →
      searchsorted ((argsort tokens).map fun i => tokens.getD i 0) t = (lens.take t).sum :=
    fun t ht => searchsorted_argsort htokens ht
  have hnext : ∀ t, t < n → ((range n).map
      (searchsorted ((argsort tokens).map fun i => tokens.getD i 0))).getD (t + 1)
        (argsort tokens).length = (lens.take (t + 1)).sum := by
    intro t ht
    by_cases hlast : t + 1 < n
    · rw [getD_eq_getElem?_getD, getElem?_map, getElem?_range hlast]
      exact hstarts (t + 1) (le_of_lt hlast)
    · -- the last token takes the rest
      rw [take_of_length_le (by omega), hbags, List.length_flatten, hlens']
      simp [getD_eq_getElem?_getD, hlast]
  rw [sumRowsByToken, embeddingBag]
  apply ext_getElem?
  intro t
  by_cases ht : t < n
  · have hblock : ((range n).map (positions tokens))[t]? = some (positions tokens t) := by
      simp [ht]
    have hslice := slice_flatten hblock
    rw [hlens', ← hbags] at hslice
    simp only [getElem?_map, getElem?_zipIdx, getElem?_range ht, Option.map_some,
      zero_add, hnext t ht, hstarts t (le_of_lt ht), hslice]
  · simp [ht]

theorem map_positions {ι β : Type} (default : β) (l : List ι) (a : ι → Nat) (b : ι → β) (t : Nat) :
    (positions (l.map a) t).map (fun p => (l.map b).getD p default) =
      (l.filter fun i => a i = t).map b := by
  have hpairs : (range (l.map a).length).map
      (fun p => ((l.map a).getD p 0, (l.map b).getD p default)) = l.map fun i => (a i, b i) := by
    apply ext_getElem?
    intro p
    by_cases hp : p < l.length <;> simp [hp, getD_eq_getElem?_getD]
  have hfilter := congrArg (fun m => (m.filter fun e => e.1 = t).map Prod.snd) hpairs
  simp only [filter_map, map_map] at hfilter
  exact hfilter

/-- The sums of the tokens, whatever the order of the rows. -/
theorem sumRowsByToken_map {ι : Type} {l l' : List ι} (hperm : l.Perm l') (a : ι → Nat) (b : ι → V)
    (ha : ∀ i ∈ l, a i < n) :
    sumRowsByToken (l.map b) (l.map a) n =
      (range n).map fun t => ((l'.filter fun i => a i = t).map b).sum := by
  have htokens : ∀ t ∈ l.map a, t < n := by
    intro t ht
    obtain ⟨i, hi, rfl⟩ := mem_map.mp ht
    exact ha i hi
  rw [sumRowsByToken_eq _ htokens]
  apply map_congr_left
  intro t _
  rw [map_positions]
  exact ((hperm.filter _).map b).sum_eq

/-! ## The local layer -/

/-- What an expert contributes to a token. -/
def weighted (cfg : Config V) (x : V) (e : Nat) (score : R) : V :=
  if cfg.scoreBeforeExperts then cfg.expert e (score • x) else score • cfg.expert e x

/-- What the selected experts contribute to a token. -/
def routedToken (cfg : Config V) (x : V) (experts : List Nat) (scores : List R) : V :=
  (zipWith (weighted cfg x) experts scores).sum

/-- What the selected experts contribute to the tokens. -/
def routedRows (cfg : Config V) (tokens : Tokens V R cfg.topK) : List V :=
  zipWith (fun x (entry : List Nat × List R) => routedToken cfg x entry.1 entry.2) tokens.x
    (tokens.selected.zip tokens.scores)

/-- The layer's output for the tokens of one rank, in their order. -/
def layerOutput (cfg : Config V) (tokens : Tokens V R cfg.topK) : List V :=
  match cfg.sharedExpert with
  | none => routedRows cfg tokens
  | some shared => zipWith (· + ·) (shared.run tokens.x) (routedRows cfg tokens)

theorem histc_eq (hids : ∀ k ∈ ids, k < n) : histc n ids = (range n).map fun e => ids.count e := by
  apply map_congr_left
  intro e _
  rw [count]
  apply countP_congr
  intro x hx
  have hlt := hids x hx
  have hne : x ≠ n := by omega
  simp [hne]

variable (cfg : Config V)

/-- The experts of the local layer, on the rows of the routing entries. -/
theorem runRoutedExperts_eq (x : List V) (hids : ∀ k ∈ ids, k < n) (a : Nat → Nat) (s : Nat → R) :
    runRoutedExperts cfg x ((argsort ids).map a) ((range n).map fun e => ids.count e)
        ((argsort ids).map s) =
      some ((argsort ids).map fun p => weighted cfg (x.getD (a p) 0) (ids.getD p 0) (s p)) := by
  have hgather : gather x ((argsort ids).map a) = (argsort ids).map fun p => x.getD (a p) 0 := by
    rw [gather, map_map]
    rfl
  simp only [runRoutedExperts, hgather]
  by_cases hbefore : cfg.scoreBeforeExperts
  · rw [if_pos hbefore, applyRoutingWeights_map]
    simpa [weighted, hbefore] using
      (groupedExperts_argsort cfg.expert hids (fun p => s p • x.getD (a p) 0) s).1
  · obtain ⟨hplain, hscored⟩ := groupedExperts_argsort cfg.expert hids (fun p => x.getD (a p) 0) s
    rw [if_neg hbefore]
    by_cases hfp32 : cfg.fp32RoutedWeighting
    · rw [if_pos hfp32, hscored]
      simp [weighted, hbefore]
    · rw [if_neg hfp32, hplain, Option.map_some, applyRoutingWeights_map]
      simp [weighted, hbefore]

theorem getD_flatten {α : Type} (default : α) {k : Nat} {rows : List (List α)}
    (hrows : ∀ row ∈ rows, row.length = k) {j c : Nat} (hc : c < k) :
    rows.flatten.getD (j * k + c) default = (rows.getD j []).getD c default := by
  induction rows generalizing j with
  | nil => simp
  | cons row rows ih =>
    have hlen := hrows row mem_cons_self
    have hrest : ∀ row ∈ rows, row.length = k := fun r hr => hrows r (mem_cons_of_mem _ hr)
    rw [flatten_cons, getD_eq_getElem?_getD]
    cases j with
    | zero =>
      rw [getElem?_append_left (by omega)]
      simp [getD_eq_getElem?_getD]
    | succ j =>
      have hpos : (j + 1) * k + c - row.length = j * k + c := by
        rw [hlen, Nat.succ_mul]
        omega
      rw [getElem?_append_right (by rw [hlen, Nat.succ_mul]; omega), hpos,
        ← getD_eq_getElem?_getD, ih hrest]
      simp [getD_eq_getElem?_getD]

theorem filter_div_eq {k T j : Nat} (hj : j < T) :
    ((range (T * k)).filter fun p => p / k = j) = (range k).map (j * k + ·) := by
  obtain ⟨m, rfl⟩ := Nat.exists_eq_add_of_lt hj
  rcases Nat.eq_zero_or_pos k with rfl | hk
  · simp
  have hsplit : (j + m + 1) * k = j * k + (k + m * k) := by ring
  have hbelow : (range (j * k)).filter (fun p => p / k = j) = [] := by
    rw [filter_eq_nil_iff]
    intro p hp
    have hlt := (Nat.div_lt_iff_lt_mul hk).mpr (mem_range.mp hp)
    simpa using ne_of_lt hlt
  have hown : ((range k).map (j * k + ·)).filter (fun p => p / k = j) =
      (range k).map (j * k + ·) := by
    rw [filter_eq_self]
    intro p hp
    obtain ⟨c, hc, rfl⟩ := mem_map.mp hp
    have hdiv : (j * k + c) / k = j := by
      rw [mul_comm, Nat.mul_add_div hk, Nat.div_eq_of_lt (mem_range.mp hc), add_zero]
    simpa using hdiv
  have habove : (((range (m * k)).map (k + ·)).map (j * k + ·)).filter (fun p => p / k = j) =
      [] := by
    rw [filter_eq_nil_iff]
    intro p hp
    obtain ⟨q, hq, rfl⟩ := mem_map.mp hp
    obtain ⟨c, -, rfl⟩ := mem_map.mp hq
    have hle : j + 1 ≤ (j * k + (k + c)) / k := by
      rw [Nat.le_div_iff_mul_le hk]
      linarith [Nat.succ_mul j k]
    simp only [decide_eq_true_eq]
    omega
  rw [hsplit, range_add, range_add, map_append, filter_append, filter_append, hbelow, hown, habove]
  simp

theorem routedToken_eq (x : V) {experts : List Nat} {scores : List R} {k : Nat}
    (hexperts : experts.length = k) (hscores : scores.length = k) :
    routedToken cfg x experts scores =
      ((range k).map fun c => weighted cfg x (experts.getD c 0) (scores.getD c 0)).sum := by
  rw [routedToken]
  congr 1
  apply ext_getElem?
  intro c
  by_cases hc : c < k
  · have he : c < experts.length := by omega
    have hs : c < scores.length := by omega
    simp [getD_eq_getElem?_getD, hc, he, hs]
  · simp [getElem?_zipWith, hc, getElem?_eq_none (show experts.length ≤ c by omega)]

theorem routedRows_eq (tokens : Tokens V R cfg.topK) :
    routedRows cfg tokens = (range tokens.x.length).map fun j =>
      routedToken cfg (tokens.x.getD j 0) (tokens.selected.getD j []) (tokens.scores.getD j []) := by
  rw [routedRows]
  apply ext_getElem?
  intro j
  by_cases hj : j < tokens.x.length
  · have he : j < tokens.selected.length := tokens.selected_length ▸ hj
    have hs : j < tokens.scores.length := tokens.scores_length ▸ hj
    simp [hj, he, hs, getD_eq_getElem?_getD]
  · simp [hj]

/-- The layer without expert parallelism gives the shared expert's rows with the contributions of the
selected experts. -/
theorem forward_eq (tokens : Tokens V R cfg.topK)
    (hselected : ∀ row ∈ tokens.selected, ∀ e ∈ row, e < cfg.numExperts) :
    forward cfg tokens = some (layerOutput cfg tokens) := by
  have hids : ∀ e ∈ tokens.selected.flatten, e < cfg.numExperts := by
    intro e he
    obtain ⟨row, hrow, he⟩ := mem_flatten.mp he
    exact hselected row hrow e he
  have hlength : tokens.selected.flatten.length = tokens.x.length * cfg.topK := by
    rw [List.length_flatten, eq_replicate_of_mem (l := tokens.selected.map List.length)
      (a := cfg.topK) (by simpa using tokens.selected_topK)]
    simp [tokens.selected_length]
  set w : Nat → V := fun p => weighted cfg (tokens.x.getD (p / cfg.topK) 0)
    (tokens.selected.flatten.getD p 0) (tokens.scores.flatten.getD p 0) with hw
  have hrun : runRoutedExperts cfg tokens.x ((argsort tokens.selected.flatten).map (· / cfg.topK))
      (histc cfg.numExperts tokens.selected.flatten)
      ((argsort tokens.selected.flatten).map fun i => tokens.scores.flatten.getD i 0) =
      some ((argsort tokens.selected.flatten).map w) := by
    rw [histc_eq hids]
    exact runRoutedExperts_eq cfg tokens.x hids _ _
  have hscatter : scatterAdd tokens.x.length
      ((argsort tokens.selected.flatten).map (· / cfg.topK))
      ((argsort tokens.selected.flatten).map w) = routedRows cfg tokens := by
    rw [routedRows_eq]
    apply ext_getElem?
    intro j
    by_cases hj : j < tokens.x.length
    · have hperm := argsort_perm tokens.selected.flatten
      rw [hlength] at hperm
      have hsum := (((hperm.filter fun p => p / cfg.topK = j).map w)).sum_eq
      rw [filter_div_eq hj] at hsum
      have hmem : ∀ {α : Type} (default : List α) (rows : List (List α)),
          rows.length = tokens.x.length → rows.getD j default ∈ rows := by
        intro α default rows hrows
        rw [getD_eq_getElem?_getD, getElem?_eq_getElem (hrows ▸ hj)]
        exact getElem_mem _
      have htoken : ((range cfg.topK).map (j * cfg.topK + ·)).map w =
          (range cfg.topK).map fun c => weighted cfg (tokens.x.getD j 0)
            ((tokens.selected.getD j []).getD c 0) ((tokens.scores.getD j []).getD c 0) := by
        rw [map_map]
        apply map_congr_left
        intro c hc
        have hck := mem_range.mp hc
        have hdiv : (j * cfg.topK + c) / cfg.topK = j := by
          rw [mul_comm, Nat.mul_add_div (by omega), Nat.div_eq_of_lt hck, add_zero]
        simp only [hw, Function.comp_apply, hdiv, getD_flatten 0 tokens.selected_topK hck,
          getD_flatten 0 tokens.scores_topK hck]
      rw [htoken] at hsum
      rw [scatterAdd_getElem? hj, zip_map', filter_map, map_map, getElem?_map,
        getElem?_range hj, Option.map_some,
        routedToken_eq cfg _ (tokens.selected_topK _ (hmem [] _ tokens.selected_length))
          (tokens.scores_topK _ (hmem [] _ tokens.scores_length)), ← hsum]
      rfl
    · rw [getElem?_eq_none (by simpa using hj), getElem?_eq_none (by simpa using hj)]
  simp only [forward, reorder, hrun, Option.map_some, scatterAddTo, layerOutput]
  cases cfg.sharedExpert with
  | none =>
    simp only [length_replicate, hscatter]
    have hlen : (routedRows cfg tokens).length = tokens.x.length := by
      rw [← hscatter, length_scatterAdd]
    rw [← hlen, ← map_const', zipWith_map_left, zipWith_self]
    simp
  | some shared => simp only [shared.length_run, hscatter]

end ArcticPlatform.ExpertParallel
