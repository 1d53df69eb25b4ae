import ArcticPlatform.ExpertParallel.Rows

/-!
# Dispatch and combine

A rank turns the tokens it receives into one row each: the contributions of its own experts.
Since every expert lives on one rank, the sum over the ranks that received a token has the
contribution of every expert that is not masked.

Main results:

- Theorem `permuteTokens_runs`: the counts are the lengths of the runs of permuted rows.
- Theorem `runPendingChunk_eq`: the rows of one rank.
- Theorem `runRound_eq`: the rows of a round.
-/

namespace ArcticPlatform.ExpertParallel

open Scatter Slices StableSort List

variable {V R : Type} [CommRing R] [AddCommGroup V] [Module R V]

/-! ## Tagged blocks -/

/-- Of blocks whose elements carry the number of their block, one is found by its number. -/
theorem filter_flatMap_zipIdx {α β : Type} (G : α → Nat → List β) (tag : β → Nat)
    (htag : ∀ a k, ∀ b ∈ G a k, tag b = k) (l : List α) (q : Nat) :
    (l.zipIdx.flatMap fun e => G e.1 e.2).filter (fun b => tag b = q) =
      (l[q]?.map fun a => G a q).getD [] := by
  have hown : ∀ a k, (G a k).filter (fun b => tag b = k) = G a k := by
    intro a k
    rw [filter_eq_self]
    intro b hb
    simpa using htag a k b hb
  have hother : ∀ a k k', k ≠ k' → (G a k).filter (fun b => tag b = k') = [] := by
    intro a k k' hne
    rw [filter_eq_nil_iff]
    intro b hb
    simpa [htag a k b hb] using hne
  have key : ∀ k, ((l.zipIdx k).flatMap fun e => G e.1 e.2).filter (fun b => tag b = k + q) =
      (l[q]?.map fun a => G a (k + q)).getD [] := by
    induction l generalizing q with
    | nil => simp
    | cons a l ih =>
      intro k
      rw [zipIdx_cons, flatMap_cons, filter_append]
      cases q with
      | zero =>
        have hrest : ((l.zipIdx (k + 1)).flatMap fun e => G e.1 e.2).filter
            (fun b => tag b = k + 0) = [] := by
          rw [filter_eq_nil_iff]
          intro b hb
          obtain ⟨e, he, hb⟩ := mem_flatMap.mp hb
          have hle := le_snd_of_mem_zipIdx he
          simp only [htag _ _ b hb, decide_eq_true_eq]
          omega
        rw [hrest, add_zero, hown]
        simp
      | succ q =>
        have hnext := ih q (k + 1)
        rw [show k + 1 + q = k + (q + 1) by omega] at hnext
        rw [hother a k _ (by omega), hnext]
        simp
  simpa using key 0

/-! ## Slots -/

/-- The routing entries of the delivered tokens that are for this rank: the token, the local expert and
the score. -/
def slots (indices : List (List Int)) (scores : List (List R)) : List (Nat × Nat × R) :=
  (indices.zip scores).zipIdx.flatMap fun entry =>
    ((entry.1.1.zip entry.1.2).filter fun slot => slot.1 ≠ -1).map fun slot =>
      (entry.2, slot.1.toNat, slot.2)

variable {indices : List (List Int)} {scores : List (List R)}

omit [CommRing R] in
/-- The entries in the order in which the code reads them. -/
theorem slots_columns (hshape : Forall₂ (fun is ss => is.length = ss.length) indices scores) :
    (slots indices scores).map (fun e => e.1) =
        blockIndex (indices.map fun row => row.countP (· ≠ -1)) ∧
      (slots indices scores).map (fun e => e.2.1) =
        (indices.flatten.filter (· ≠ -1)).map Int.toNat ∧
      (slots indices scores).map (fun e => e.2.2) =
        ((indices.flatten.zip scores.flatten).filter fun entry => entry.1 ≠ -1).map Prod.snd := by
  have hrow : ∀ {is : List Int} {ss : List R}, is.length = ss.length →
      ((is.zip ss).filter fun slot => slot.1 ≠ -1).map Prod.fst = is.filter (· ≠ -1) := by
    intro is ss hlen
    have hfst : (is.zip ss).map Prod.fst = is := map_fst_zip (le_of_eq hlen)
    conv_rhs => rw [← hfst, filter_map]
    rfl
  have hcount : ∀ {is : List Int} {ss : List R}, is.length = ss.length →
      ((is.zip ss).filter fun slot => slot.1 ≠ -1).length = is.countP (· ≠ -1) := by
    intro is ss hlen
    rw [countP_eq_length_filter, ← hrow hlen, length_map]
  have htokens : ∀ k, ((indices.zip scores).zipIdx k).flatMap (fun entry =>
      (((entry.1.1.zip entry.1.2).filter fun slot => slot.1 ≠ -1).map fun slot =>
        (entry.2, slot.1.toNat, slot.2)).map fun e => e.1) =
        ((indices.map fun row => row.countP (· ≠ -1)).zipIdx k).flatMap
          fun entry => replicate entry.1 entry.2 := by
    induction hshape with
    | nil => simp
    | @cons is ss indices scores hlen _ ih =>
      intro k
      rw [zip_cons_cons, zipIdx_cons, flatMap_cons, ih, map_cons,
        zipIdx_cons, flatMap_cons, map_map, ← hcount hlen]
      exact congrArg (· ++ _) map_const'
  have hdrop : ∀ {β : Type} (H : List Int × List R → List β),
      ((indices.zip scores).zipIdx.flatMap fun entry => H entry.1) =
        (indices.zip scores).flatMap H := by
    intro β H
    conv_rhs => rw [← zipIdx_map_fst 0 (indices.zip scores), flatMap_map]
  refine ⟨?_, ?_, ?_⟩
  · rw [slots, map_flatMap, htokens 0]
    rfl
  · rw [slots, map_flatMap]
    simp only [map_map, Function.comp_def]
    rw [hdrop fun entry => ((entry.1.zip entry.2).filter fun slot => slot.1 ≠ -1).map
      fun slot => slot.1.toNat]
    clear htokens hdrop
    induction hshape with
    | nil => rfl
    | @cons is ss indices scores hlen _ ih =>
      rw [zip_cons_cons, flatMap_cons, ih, flatten_cons, filter_append,
        map_append, ← hrow hlen, map_map]
      rfl
  · rw [slots, map_flatMap]
    simp only [map_map, Function.comp_def]
    rw [hdrop fun entry => ((entry.1.zip entry.2).filter fun slot => slot.1 ≠ -1).map
      fun slot => slot.2]
    clear htokens hdrop
    induction hshape with
    | nil => rfl
    | @cons is ss indices scores hlen _ ih =>
      rw [zip_cons_cons, flatMap_cons, ih, flatten_cons, flatten_cons,
        zip_append hlen, filter_append, map_append]

variable {ids : List Nat}

theorem foldl_max_le {m n : Nat} (hn : n ≤ m) (hids : ∀ k ∈ ids, k < m) :
    ids.foldl (fun n i => max n (i + 1)) n ≤ m := by
  induction ids generalizing n with
  | nil => exact hn
  | cons k ids ih =>
    apply ih (max_le hn (hids k mem_cons_self))
    exact fun k' hk' => hids k' (mem_cons_of_mem _ hk')

theorem lt_of_foldl_max {m n : Nat} (h : ids.foldl (fun n i => max n (i + 1)) n ≤ m) :
    n ≤ m ∧ ∀ k ∈ ids, k < m := by
  induction ids generalizing n with
  | nil => exact ⟨h, by simp⟩
  | cons k ids ih =>
    obtain ⟨hmax, hids⟩ := ih h
    refine ⟨(le_max_left _ _).trans hmax, ?_⟩
    intro k' hk'
    rcases mem_cons.mp hk' with rfl | hk'
    · exact (le_max_right _ _).trans hmax
    · exact hids k' hk'

variable {m : Nat}

omit [Module R V] in
theorem permuteTokens_eq (hidden : List V)
    (hshape : Forall₂ (fun is ss => is.length = ss.length) indices scores)
    (hids : ∀ row ∈ indices, ∀ i ∈ row, i = -1 ∨ 0 ≤ i ∧ i < m) :
    permuteTokens hidden indices scores m = some
      ((argsort ((slots indices scores).map fun e => e.2.1)).map fun p =>
          hidden.getD (((slots indices scores).map fun e => e.1).getD p 0) 0,
        (argsort ((slots indices scores).map fun e => e.2.1)).map fun p =>
          ((slots indices scores).map fun e => e.2.2).getD p 0,
        (argsort ((slots indices scores).map fun e => e.2.1)).map fun p =>
          ((slots indices scores).map fun e => e.1).getD p 0,
        (range m).map fun e => ((slots indices scores).map fun e => e.2.1).count e) := by
  obtain ⟨htokens, hexperts, hscores⟩ := slots_columns hshape
  have hvalid : ∀ i ∈ indices.flatten.filter (· ≠ -1), 0 ≤ i ∧ i < m := by
    intro i hi
    obtain ⟨hmem, hne⟩ := mem_filter.mp hi
    obtain ⟨row, hrow, hi⟩ := mem_flatten.mp hmem
    exact (hids row hrow i hi).resolve_left (by simpa using hne)
  have hnonneg : (indices.flatten.filter (· ≠ -1)).any (· < 0) = false := by
    rw [any_eq_false]
    intro i hi
    have hle := (hvalid i hi).1
    simpa using hle
  have hbound : ((indices.flatten.filter (· ≠ -1)).map Int.toNat).foldl
      (fun n i => max n (i + 1)) 0 ≤ m := by
    apply foldl_max_le zero_le
    intro k hk
    obtain ⟨i, hi, rfl⟩ := mem_map.mp hk
    have hlt := hvalid i hi
    omega
  simp only [permuteTokens, hnonneg, Bool.false_eq_true, if_false, length_map,
    length_range, max_eq_left hbound, ne_eq, not_true_eq_false, gather, map_map]
  rw [← htokens, ← hexperts, ← hscores]
  rfl

omit [Module R V] in
theorem ids_of_permuteTokens {hidden : List V} {result : List V × List R × List Nat × List Nat}
    (h : permuteTokens hidden indices scores m = some result) :
    ∀ row ∈ indices, ∀ i ∈ row, i = -1 ∨ 0 ≤ i ∧ i < m := by
  simp only [permuteTokens] at h
  split_ifs at h with hneg hbins
  intro row hrow i hi
  by_cases hne : i = -1
  · exact .inl hne
  · right
    have hmem : i ∈ indices.flatten.filter (· ≠ -1) :=
      mem_filter.mpr ⟨mem_flatten.mpr ⟨row, hrow, hi⟩, by simpa using hne⟩
    have hnonneg : 0 ≤ i := by
      by_contra hlt
      exact hneg (any_eq_true.mpr ⟨i, hmem, by simpa using hlt⟩)
    have hmax : ((indices.flatten.filter (· ≠ -1)).map Int.toNat).foldl
        (fun n i => max n (i + 1)) 0 ≤ m := by
      simp only [length_map, length_range] at hbins
      omega
    have hlt := (lt_of_foldl_max hmax).2 i.toNat (mem_map_of_mem hmem)
    omega

omit [CommRing R] in
theorem ids_lt (hshape : Forall₂ (fun is ss => is.length = ss.length) indices scores)
    (hids : ∀ row ∈ indices, ∀ i ∈ row, i = -1 ∨ 0 ≤ i ∧ i < m) :
    ∀ k ∈ (slots indices scores).map (fun e => e.2.1), k < m := by
  rw [(slots_columns hshape).2.1]
  intro k hk
  obtain ⟨i, hi, rfl⟩ := mem_map.mp hk
  obtain ⟨hmem, hne⟩ := mem_filter.mp hi
  obtain ⟨row, hrow, hi⟩ := mem_flatten.mp hmem
  have hlt := (hids row hrow i hi).resolve_left (by simpa using hne)
  omega

omit [Module R V] in
/-- The permuted rows are consecutive runs, one for each local expert, and the counts are the lengths
of the runs. -/
theorem permuteTokens_runs {hidden : List V} {rows : List V} {permutedScores : List R}
    {tokens counts : List Nat}
    (hshape : Forall₂ (fun is ss => is.length = ss.length) indices scores)
    (h : permuteTokens hidden indices scores m = some (rows, permutedScores, tokens, counts)) :
    ∃ runs : List (List (Nat × Nat × R)),
      runs = (range m).map (fun e => (slots indices scores).filter fun slot => slot.2.1 = e) ∧
      counts = runs.map List.length ∧ tokens = runs.flatten.map (fun slot => slot.1) ∧
      rows = runs.flatten.map (fun slot => hidden.getD slot.1 0) ∧
      permutedScores = runs.flatten.map fun slot => slot.2.2 := by
  have hids := ids_of_permuteTokens h
  rw [permuteTokens_eq hidden hshape hids] at h
  simp only [Option.some.injEq, Prod.mk.injEq] at h
  obtain ⟨rfl, rfl, rfl, rfl⟩ := h
  set S := slots indices scores
  have hbound : ∀ k ∈ S.map (fun e => e.2.1), k < m := ids_lt hshape hids
  have hrun : ∀ {β : Type} (default : β) (b : Nat × Nat × R → β),
      (argsort (S.map fun e => e.2.1)).map (fun p => (S.map b).getD p default) =
        (((range m).map fun e => S.filter fun slot => slot.2.1 = e).flatten).map b := by
    intro β default b
    rw [argsort_eq hbound, map_flatMap, map_flatten, map_map, flatMap_def]
    congr 1
    apply map_congr_left
    intro e _
    exact map_positions default S _ b e
  refine ⟨_, rfl, ?_, hrun 0 _, ?_, hrun 0 _⟩
  · rw [map_map]
    apply map_congr_left
    intro e _
    rw [count, countP_map, countP_eq_length_filter]
    rfl
  · have htokens := congrArg (map fun i => hidden.getD i 0) (hrun 0 fun slot => slot.1)
    rw [map_map, map_map] at htokens
    exact htokens

/-! ## The rows of one rank -/

variable [DecidableEq R]

/-- The experts as a rank numbers them. -/
def localConfig (cfg : Config V) (perRank rank : Nat) : Config V :=
  { cfg with expert := fun e => cfg.expert (rank * perRank + e) }

/-- What the experts of a rank contribute to a delivered token. -/
def localSum (cfg : Config V) (perRank rank : Nat) (d : Delivery V R) : V :=
  (((d.indices.zip d.scores).filter fun slot => slot.1 ≠ -1).map fun slot =>
    weighted (localConfig cfg perRank rank) d.row slot.1.toNat slot.2).sum

variable (cfg : Config V)

omit [DecidableEq R] in
theorem localExperts_eq (hids : ∀ k ∈ ids, k < m) (a : Nat → V) (s : Nat → R) :
    (if cfg.scoreBeforeExperts then
        groupedExperts cfg.expert (applyRoutingWeights ((argsort ids).map a) ((argsort ids).map s))
          ((range m).map fun e => ids.count e) (none : Option (List R))
      else groupedExperts cfg.expert ((argsort ids).map a)
        ((range m).map fun e => ids.count e) (some ((argsort ids).map s))) =
      some ((argsort ids).map fun p => weighted cfg (a p) (ids.getD p 0) (s p)) := by
  by_cases hbefore : cfg.scoreBeforeExperts
  · rw [if_pos hbefore, applyRoutingWeights_map]
    simpa [weighted, hbefore] using
      (groupedExperts_argsort cfg.expert hids (fun p => s p • a p) s).1
  · rw [if_neg hbefore, (groupedExperts_argsort cfg.expert hids a s).2]
    simp [weighted, hbefore]

omit [CommRing R] [DecidableEq R] [AddCommGroup V] [Module R V] in
theorem slots_received (received : List (Delivery V R)) :
    slots (received.map Delivery.indices) (received.map Delivery.scores) =
      received.zipIdx.flatMap fun e =>
        ((e.1.indices.zip e.1.scores).filter fun slot => slot.1 ≠ -1).map fun slot =>
          (e.2, slot.1.toNat, slot.2) := by
  rw [slots, zip_map', zipIdx_map, flatMap_map]
  rfl

omit [DecidableEq R] in
theorem map_slots_filter (m rank : Nat) {received : List (Delivery V R)} {t : Nat}
    {d : Delivery V R} (hd : received[t]? = some d) :
    (((slots (received.map Delivery.indices) (received.map Delivery.scores)).filter
      fun e => e.1 = t).map fun e => weighted (localConfig cfg m rank)
        ((received.map Delivery.row).getD e.1 0) e.2.1 e.2.2).sum = localSum cfg m rank d := by
  have hrow : (received.map Delivery.row).getD t 0 = d.row := by
    rw [getD_eq_getElem?_getD, getElem?_map, hd]
    rfl
  have hfilter := filter_flatMap_zipIdx (fun (d : Delivery V R) k =>
    ((d.indices.zip d.scores).filter fun slot => slot.1 ≠ -1).map fun slot =>
      (k, slot.1.toNat, slot.2)) (fun e => e.1) (by
      intro d k e he
      obtain ⟨slot, -, rfl⟩ := mem_map.mp he
      rfl) received t
  rw [slots_received, hfilter, hd, Option.map_some, Option.getD_some, map_map, localSum]
  congr 1
  apply map_congr_left
  intro slot _
  simp only [Function.comp_apply, hrow]

omit [DecidableEq R] in
/-- The rows that a rank gives back: one for each token it received. -/
theorem runPendingChunk_eq (m rank : Nat) (received : List (Delivery V R))
    (hshape : ∀ d ∈ received, d.indices.length = d.scores.length)
    (hids : ∀ d ∈ received, ∀ i ∈ d.indices, i = -1 ∨ 0 ≤ i ∧ i < m) :
    runPendingChunk cfg m rank received = some (received.map (localSum cfg m rank)) := by
  have hshape' : Forall₂ (fun is ss => is.length = ss.length) (received.map Delivery.indices)
      (received.map Delivery.scores) := by
    rw [forall₂_map_left_iff, forall₂_map_right_iff, forall₂_same]
    exact hshape
  have hids' : ∀ row ∈ received.map Delivery.indices, ∀ i ∈ row, i = -1 ∨ 0 ≤ i ∧ i < m := by
    intro row hrow
    obtain ⟨d, hd, rfl⟩ := mem_map.mp hrow
    exact hids d hd
  simp only [runPendingChunk]
  by_cases hsonic : cfg.useSonic ∧ !cfg.scoreBeforeExperts ∧ !cfg.fp32RoutedWeighting
  · -- the kernel sums the weighted rows itself
    have hafter : cfg.scoreBeforeExperts = false := by simpa using hsonic.2.1
    rw [if_pos hsonic, sonicRoutedExperts, zip_map', zipWith_map, zipWith_self]
    congr 1
    apply map_congr_left
    intro d hd
    have hfilter : (d.indices.zip d.scores).filter (fun slot => 0 ≤ slot.1) =
        (d.indices.zip d.scores).filter fun slot => slot.1 ≠ -1 := by
      apply filter_congr
      intro slot hslot
      rcases hids d hd slot.1 (of_mem_zip hslot).1 with hneg | ⟨hnonneg, -⟩
      · simp [hneg]
      · have hne : slot.1 ≠ -1 := by omega
        simp [hnonneg, hne]
    simp only [localSum, hfilter, weighted, localConfig, hafter, Bool.false_eq_true, if_false]
  · set S := slots (received.map Delivery.indices) (received.map Delivery.scores) with hS
    set ids := S.map (fun e => e.2.1) with hidsS
    set w : Nat × Nat × R → V := fun e =>
      weighted (localConfig cfg m rank) ((received.map Delivery.row).getD e.1 0) e.2.1 e.2.2 with hw
    have hbound : ∀ k ∈ ids, k < m := ids_lt hshape' hids'
    have hlength : ids.length = S.length := length_map _
    have hentry : ∀ p ∈ argsort ids, ∃ e ∈ S, S[p]? = some e := by
      intro p hp
      have hlt : p < S.length := by
        rw [← hlength]
        exact mem_range.mp ((argsort_perm ids).mem_iff.mp hp)
      exact ⟨S[p], getElem_mem hlt, getElem?_eq_getElem hlt⟩
    have htoken : ∀ e ∈ S, e.1 < received.length := by
      intro e he
      rw [hS, slots_received] at he
      obtain ⟨entry, hentry, he⟩ := mem_flatMap.mp he
      obtain ⟨slot, -, rfl⟩ := mem_map.mp he
      exact snd_lt_of_mem_zipIdx hentry
    have hexperts := localExperts_eq (localConfig cfg m rank) hbound
      (fun p => (received.map Delivery.row).getD ((S.map fun e => e.1).getD p 0) 0)
      (fun p => (S.map fun e => e.2.2).getD p 0)
    have hrouted : (argsort ids).map (fun p => weighted (localConfig cfg m rank)
        ((received.map Delivery.row).getD ((S.map fun e => e.1).getD p 0) 0) (ids.getD p 0)
        ((S.map fun e => e.2.2).getD p 0)) = (argsort ids).map fun p => (S.map w).getD p 0 := by
      apply map_congr_left
      intro p hp
      obtain ⟨e, -, he⟩ := hentry p hp
      simp only [hidsS, getD_eq_getElem?_getD, getElem?_map, he, Option.map_some,
        Option.getD_some, hw]
    have hsums := sumRowsByToken_map (argsort_perm ids) (fun p => (S.map fun e => e.1).getD p 0)
      (fun p => (S.map w).getD p 0) (n := received.length) (by
        intro p hp
        obtain ⟨e, hmem, he⟩ := hentry p hp
        simp only [getD_eq_getElem?_getD, getElem?_map, he]
        exact htoken e hmem)
    have hrows : ((range received.length).map fun t =>
        (((range ids.length).filter fun p => (S.map fun e => e.1).getD p 0 = t).map
          fun p => (S.map w).getD p 0).sum) = received.map (localSum cfg m rank) := by
      apply ext_getElem?
      intro t
      by_cases ht : t < received.length
      · have hpositions : (range ids.length).filter
            (fun p => (S.map fun e => e.1).getD p 0 = t) = positions (S.map fun e => e.1) t := by
          rw [positions, hlength, length_map]
        have hd := getElem?_eq_getElem ht
        rw [getElem?_map, getElem?_range ht, getElem?_map, hd, Option.map_some,
          Option.map_some, hpositions, map_positions 0 S (fun e => e.1) w t,
          map_slots_filter cfg m rank hd]
      · simp [ht]
    rw [hrouted] at hexperts
    rw [if_neg hsonic]
    simp only [permuteTokens_eq _ hshape' hids', Option.bind_eq_bind, Option.bind_some]
    rw [← hS, ← hidsS]
    by_cases hbefore : cfg.scoreBeforeExperts
    · rw [if_pos (show (localConfig cfg m rank).scoreBeforeExperts = true from hbefore)] at hexperts
      simp only [localConfig] at hexperts
      rw [if_pos hbefore, hexperts, Option.bind_some, hsums, hrows]
    · rw [if_neg (show ¬ (localConfig cfg m rank).scoreBeforeExperts = true from hbefore)] at hexperts
      simp only [localConfig] at hexperts
      rw [if_neg hbefore, hexperts, Option.bind_some, hsums, hrows]

end ArcticPlatform.ExpertParallel
