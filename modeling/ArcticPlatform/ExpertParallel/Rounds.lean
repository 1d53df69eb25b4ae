import ArcticPlatform.ExpertParallel.Exchange
import ArcticPlatform.Library.Chunks

/-!
# Rounds

In a round every rank sends a chunk of its tokens.  The experts of a token are on the ranks
that receive it, each on one rank, so the combined row has what every selected expert
contributes; a zero score contributes nothing.  The rounds give back the chunks in order.

Main results:

- Theorem `runRound_eq`: the rows of a round.
- Theorem `runDeepepRoutedExperts_eq`: the layer on every rank of the group.
-/

namespace ArcticPlatform.ExpertParallel

open Scatter Slices StableSort List

variable {V R : Type} [CommRing R] [AddCommGroup V] [Module R V]

/-! ## Combine -/

theorem sum_owners {ι : Type} (owner : ι → Nat) (b : ι → V) {l : List ι} {n : Nat}
    (howner : ∀ a ∈ l, owner a < n) :
    ((range n).map fun r => ((l.filter fun a => owner a = r).map b).sum).sum = (l.map b).sum := by
  have hperm := (mergeSort_perm l (keyLe owner)).map b
  rw [← hperm.sum_eq, mergeSort_key owner howner, map_flatMap, flatMap_def, sum_flatten, map_map]
  rfl

variable (cfg : Config V)

/-- What the experts of a rank contribute to a token, by the experts' own ids. -/
theorem localSum_localIndices (m rank : Nat) (source : Nat × Nat) (row : V) {indices : List Int}
    (scores : List R) :
    localSum cfg m rank ⟨source, row, localIndices m rank indices, scores⟩ =
      ((((indices.zip scores).filter fun slot => 0 ≤ slot.1).filter
        fun slot => (slot.1 / (m : Int)).toNat = rank).map fun slot =>
          weighted cfg row slot.1.toNat slot.2).sum := by
  have hmod : ∀ e : Int, 0 ≤ e → 0 ≤ e % (m : Int) := by
    intro e he
    obtain ⟨k, rfl⟩ := Int.eq_ofNat_of_zero_le he
    exact_mod_cast zero_le
  have howned : ∀ e : Int, ((if 0 ≤ e ∧ e / (m : Int) = rank then e % (m : Int) else -1) ≠ -1) ↔
      0 ≤ e ∧ (e / (m : Int)).toNat = rank := by
    intro e
    by_cases hnonneg : 0 ≤ e
    · have hdiv : 0 ≤ e / (m : Int) := Int.ediv_nonneg hnonneg (by omega)
      have hle := hmod e hnonneg
      by_cases hrank : e / (m : Int) = rank
      · rw [if_pos ⟨hnonneg, hrank⟩]
        omega
      · rw [if_neg (by tauto)]
        omega
    · simp [hnonneg]
  rw [localSum, localIndices, zip_map_left, filter_map, map_map, filter_filter]
  have hfilter : (indices.zip scores).filter ((fun slot : Int × R => decide (slot.1 ≠ -1)) ∘
      Prod.map (fun e => if 0 ≤ e ∧ e / (m : Int) = rank then e % (m : Int) else -1) id) =
      (indices.zip scores).filter fun slot =>
        decide ((slot.1 / (m : Int)).toNat = rank) && decide (0 ≤ slot.1) := by
    apply filter_congr
    intro slot _
    simp only [Function.comp_apply, Prod.map_fst, howned, Bool.decide_and, Bool.and_comm]
  rw [hfilter]
  congr 1
  apply map_congr_left
  intro slot hslot
  have hcond := of_mem_filter hslot
  simp only [Bool.and_eq_true, decide_eq_true_eq] at hcond
  have hrank : slot.1 / (m : Int) = rank := by
    have hdiv : 0 ≤ slot.1 / (m : Int) := Int.ediv_nonneg hcond.2 (by omega)
    omega
  have hid : rank * m + (slot.1 % (m : Int)).toNat = slot.1.toNat := by
    have hsplit := Int.mul_ediv_add_emod slot.1 m
    have hle := hmod slot.1 hcond.2
    rw [hrank] at hsplit
    have hcast : ((rank * m : Nat) : Int) = (m : Int) * rank := by push_cast; ring
    omega
  simp only [Function.comp_apply, Prod.map_fst, Prod.map_snd, id_eq,
    if_pos (And.intro hcond.2 hrank), weighted, localConfig, hid]

theorem sum_maskSelected [DecidableEq R] (row : V) (experts : List Nat) (scores : List R)
    (hzero : cfg.scoreBeforeExperts = true → ∀ e, cfg.expert e 0 = 0) :
    ((((zipWith (fun (e : Nat) (s : R) => if s = 0 then -1 else (e : Int)) experts scores).zip
      scores).filter fun slot => 0 ≤ slot.1).map fun slot =>
        weighted cfg row slot.1.toNat slot.2).sum = routedToken cfg row experts scores := by
  induction experts generalizing scores with
  | nil => simp [routedToken]
  | cons e experts ih =>
    cases scores with
    | nil => simp [routedToken]
    | cons s scores =>
      have hrest := ih scores
      simp only [routedToken] at hrest ⊢
      rw [zipWith_cons_cons, zip_cons_cons, zipWith_cons_cons, sum_cons, filter_cons]
      by_cases hs : s = 0
      · have hnone : weighted cfg row e s = 0 := by
          by_cases hbefore : cfg.scoreBeforeExperts
          · simp [weighted, hbefore, hs, hzero hbefore]
          · simp [weighted, hbefore, hs]
        simp [hs, hrest, hs ▸ hnone]
      · simp [hs, hrest]

/-! ## One round -/

/-- A delivery of a token to a rank. -/
def delivery (m rank : Nat) (source : Nat × Nat) (entry : V × List Int × List R) : Delivery V R :=
  ⟨source, entry.1, localIndices m rank entry.2.1, entry.2.2⟩

/-- What the buffer owes a rank for one token. -/
def owedToken (m rank : Nat) (source : Nat × Nat) (entry : V × List Int × List R) :
    List (Delivery V R) :=
  if (localIndices m rank entry.2.1).any (· ≠ -1) then [delivery m rank source entry] else []

/-- The tokens of a chunk. -/
def Chunk.entries (chunk : Chunk V R) : List (V × List Int × List R) :=
  chunk.rows.zip (chunk.indices.zip chunk.scores)

section

omit [CommRing R] [AddCommGroup V] [Module R V]

theorem owed_eq (m rank : Nat) (sent : List (Chunk V R)) :
    owed m rank sent = sent.zipIdx.flatMap fun e =>
      e.1.entries.zipIdx.flatMap fun entry => owedToken m rank (e.2, entry.2) entry.1 := by
  rw [owed]
  apply flatMap_congr
  rintro ⟨chunk, source⟩ _
  dsimp only
  rw [filterMap_eq_flatMap_toList]
  apply flatMap_congr
  rintro ⟨entry, i⟩ _
  rw [owedToken]
  split_ifs with hany
  · rfl
  · rfl

theorem owed_filter (m rank : Nat) {sent : List (Chunk V R)} {q i : Nat} {chunk : Chunk V R}
    (hchunk : sent[q]? = some chunk) {entry : V × List Int × List R}
    (hentry : chunk.entries[i]? = some entry) :
    (owed m rank sent).filter (fun d => d.source = (q, i)) = owedToken m rank (q, i) entry := by
  have hsource : ∀ source entry, ∀ d ∈ owedToken (V := V) (R := R) m rank source entry,
      d.source = source := by
    intro source entry d hd
    rw [owedToken] at hd
    split_ifs at hd with hany
    · rw [mem_singleton.mp hd]
      rfl
    · exact absurd hd not_mem_nil
  have hchunks := filter_flatMap_zipIdx (fun (chunk : Chunk V R) k =>
    chunk.entries.zipIdx.flatMap fun entry => owedToken m rank (k, entry.2) entry.1)
    (fun d => d.source.1) (by
      intro chunk k d hd
      obtain ⟨entry, -, hd⟩ := mem_flatMap.mp hd
      rw [hsource _ _ d hd]) sent q
  have htokens := filter_flatMap_zipIdx (fun entry k => owedToken (V := V) (R := R) m rank (q, k) entry)
    (fun d => d.source.2) (by
      intro entry k d hd
      rw [hsource _ _ d hd]) chunk.entries i
  rw [hchunk, Option.map_some, Option.getD_some] at hchunks
  rw [hentry, Option.map_some, Option.getD_some] at htokens
  rw [← htokens, ← hchunks, filter_filter, owed_eq]
  apply filter_congr
  intro d _
  simp [Prod.ext_iff, Bool.and_comm]

end

/-- A rank adds what its experts contribute, also where it does not receive the token. -/
theorem sum_owedToken (m rank : Nat) (source : Nat × Nat) (entry : V × List Int × List R) :
    ((owedToken m rank source entry).map (localSum cfg m rank)).sum =
      localSum cfg m rank (delivery m rank source entry) := by
  rw [owedToken]
  split_ifs with hany
  · simp
  · have hnone : ((localIndices m rank entry.2.1).zip entry.2.2).filter
        (fun slot => slot.1 ≠ -1) = [] := by
      rw [filter_eq_nil_iff]
      intro slot hslot hne
      exact hany (any_eq_true.mpr ⟨slot.1, (of_mem_zip hslot).1, hne⟩)
    rw [localSum, delivery, hnone]
    rfl

theorem combine_eq (m : Nat) (buffer : Buffer V R) (round : Nat) {sent : List (Chunk V R)}
    {q i : Nat} {chunk : Chunk V R} (hchunk : sent[q]? = some chunk) {entry : V × List Int × List R}
    (hentry : chunk.entries[i]? = some entry) :
    combine ((range sent.length).map fun rank =>
        buffer.deliver round rank (owed m rank sent))
      ((range sent.length).map fun rank =>
        (buffer.deliver round rank (owed m rank sent)).map (localSum cfg m rank)) q i =
      ((range sent.length).map fun rank =>
        localSum cfg m rank (delivery m rank (q, i) entry)).sum := by
  rw [combine, zip_map', map_map]
  congr 1
  apply map_congr_left
  intro rank _
  have hperm := ((buffer.once round rank (owed m rank sent)).filter
    fun d => d.source = (q, i)).map (localSum cfg m rank)
  rw [owed_filter m rank hchunk hentry] at hperm
  rw [← sum_owedToken, ← hperm.sum_eq]
  simp only [Function.comp_apply]
  conv_lhs => rw [← map_id (buffer.deliver round rank (owed m rank sent)), map_map,
    zip_map', filter_map, map_map]
  rfl

variable [DecidableEq R]

/-- Some tokens of a rank with what the router selected for them. -/
structure Part (V R : Type) where
  x : List V
  selected : List (List Nat)
  scores : List (List R)

/-- The lists go together, and the selected experts exist. -/
structure Part.Valid (numExperts : Nat) (part : Part V R) : Prop where
  selected_length : part.selected.length = part.x.length
  scores_length : part.scores.length = part.x.length
  aligned : ∀ entry ∈ part.selected.zip part.scores, entry.1.length = entry.2.length
  selected_lt : ∀ row ∈ part.selected, ∀ e ∈ row, e < numExperts

/-- What the rank sends for these tokens. -/
def Part.chunk (part : Part V R) : Chunk V R :=
  ⟨part.x, maskSelected part.selected part.scores, part.scores⟩

/-- What the selected experts contribute to these tokens. -/
def Part.routed (cfg : Config V) (part : Part V R) : List V :=
  zipWith (fun x (entry : List Nat × List R) => routedToken cfg x entry.1 entry.2) part.x
    (part.selected.zip part.scores)

/-- A selected expert, masked where its score is zero. -/
def maskRow (experts : List Nat) (scores : List R) : List Int :=
  zipWith (fun (e : Nat) (s : R) => if s = 0 then -1 else (e : Int)) experts scores

theorem mem_maskRow {experts : List Nat} {scores : List R} {i : Int}
    (hi : i ∈ maskRow experts scores) (hnonneg : 0 ≤ i) : i.toNat ∈ experts := by
  induction experts generalizing scores with
  | nil => simp [maskRow] at hi
  | cons e experts ih =>
    cases scores with
    | nil => simp [maskRow] at hi
    | cons s scores =>
      rcases mem_cons.mp hi with rfl | hi
      · by_cases hs : s = 0
        · simp [hs] at hnonneg
        · simp [hs]
      · exact mem_cons_of_mem _ (ih hi)

omit [AddCommGroup V] [Module R V] in
theorem entries_chunk (part : Part V R) :
    part.chunk.entries = (part.x.zip (part.selected.zip part.scores)).map fun entry =>
      (entry.1, maskRow entry.2.1 entry.2.2, entry.2.2) := by
  obtain ⟨x, selected, scores⟩ := part
  simp only [Chunk.entries, Part.chunk, maskSelected]
  induction x generalizing selected scores with
  | nil => rfl
  | cons row x ih =>
    cases selected with
    | nil => simp
    | cons es selected =>
      cases scores with
      | nil => simp
      | cons ss scores =>
        simp only [zipWith_cons_cons, zip_cons_cons, map_cons, ih]
        rfl

omit [AddCommGroup V] [Module R V] in
theorem mem_owed {m rank : Nat} {parts : List (Part V R)} {n : Nat}
    (hvalid : ∀ part ∈ parts, part.Valid (n * m)) {d : Delivery V R}
    (hd : d ∈ owed m rank (parts.map Part.chunk)) :
    d.indices.length = d.scores.length ∧ ∀ i ∈ d.indices, i = -1 ∨ 0 ≤ i ∧ i < m := by
  rw [owed_eq] at hd
  obtain ⟨⟨chunk, source⟩, hchunk, hd⟩ := mem_flatMap.mp hd
  obtain ⟨⟨entry, j⟩, hentry, hd⟩ := mem_flatMap.mp hd
  obtain ⟨part, hpart, rfl⟩ := mem_map.mp (fst_mem_of_mem_zipIdx hchunk)
  have hmem := fst_mem_of_mem_zipIdx hentry
  rw [entries_chunk] at hmem
  obtain ⟨⟨row, es, ss⟩, htoken, rfl⟩ := mem_map.mp hmem
  have hzip := (of_mem_zip htoken).2
  have hlength := (hvalid part hpart).aligned _ hzip
  have hlt := (hvalid part hpart).selected_lt es (of_mem_zip hzip).1
  rw [owedToken] at hd
  split_ifs at hd with hany
  · obtain rfl := mem_singleton.mp hd
    constructor
    · simp only [delivery, localIndices, maskRow, length_map, length_zipWith]
      simp only at hlength
      omega
    · intro i hi
      obtain ⟨e, he, rfl⟩ := mem_map.mp hi
      by_cases hown : 0 ≤ e ∧ e / (m : Int) = rank
      · have hpos : 0 < m := by
          by_contra hzero
          have hbound := hlt _ (mem_maskRow he hown.1)
          rw [Nat.eq_zero_of_not_pos hzero, mul_zero] at hbound
          exact absurd hbound (Nat.not_lt_zero _)
        right
        rw [if_pos hown]
        exact ⟨Int.emod_nonneg e (by omega), Int.emod_lt_of_pos e (by omega)⟩
      · rw [if_neg hown]
        exact .inl rfl
  · exact absurd hd not_mem_nil

theorem sum_localSum {m n : Nat} (source : Nat × Nat) (row : V) {experts : List Nat}
    (scores : List R) (hexperts : ∀ e ∈ experts, e < n * m)
    (hzero : cfg.scoreBeforeExperts = true → ∀ e, cfg.expert e 0 = 0) :
    ((range n).map fun rank => localSum cfg m rank
      (delivery m rank source (row, maskRow experts scores, scores))).sum =
      routedToken cfg row experts scores := by
  rw [← sum_maskSelected cfg row experts scores hzero]
  simp only [delivery, localSum_localIndices]
  apply sum_owners (fun slot : Int × R => (slot.1 / (m : Int)).toNat)
    (fun slot => weighted cfg row slot.1.toNat slot.2)
  intro slot hslot
  obtain ⟨hmem, hnonneg⟩ := mem_filter.mp hslot
  simp only [decide_eq_true_eq] at hnonneg
  have hlt := hexperts _ (mem_maskRow (of_mem_zip hmem).1 hnonneg)
  have hpos : 0 < m := Nat.pos_of_mul_pos_left (Nat.zero_lt_of_lt hlt)
  have hdiv : slot.1 / (m : Int) < n := by
    rw [Int.ediv_lt_iff_lt_mul (by omega)]
    omega
  have hquot : 0 ≤ slot.1 / (m : Int) := Int.ediv_nonneg hnonneg (by omega)
  omega

/-- A round gives every rank the rows of the tokens that it sent. -/
theorem runRound_eq (m : Nat) (buffer : Buffer V R) (round : Nat) {parts : List (Part V R)}
    (hvalid : ∀ part ∈ parts, part.Valid (parts.length * m))
    (hzero : cfg.scoreBeforeExperts = true → ∀ e, cfg.expert e 0 = 0) :
    runRound cfg m buffer round (parts.map Part.chunk) = some (parts.map (Part.routed cfg)) := by
  set sent := parts.map Part.chunk with hsent
  set received := (range sent.length).map fun rank =>
    buffer.deliver round rank (owed m rank sent) with hreceived
  have hlength : sent.length = parts.length := length_map _
  have houtputs : (received.zipIdx.mapM fun e => runPendingChunk cfg m e.2 e.1) =
      some ((range sent.length).map fun rank =>
        (buffer.deliver round rank (owed m rank sent)).map (localSum cfg m rank)) := by
    have hmap : (range sent.length).map (fun rank =>
        (buffer.deliver round rank (owed m rank sent)).map (localSum cfg m rank)) =
        received.zipIdx.map fun e => e.1.map (localSum cfg m e.2) := by
      apply ext_getElem?
      intro rank
      by_cases hrank : rank < sent.length <;> simp [hreceived, hrank]
    rw [hmap]
    apply Results.mapM_eq_some_map
    rintro ⟨tokens, rank⟩ hmem
    have htokens := mem_zipIdx_iff_getElem?.mp hmem
    simp only [hreceived, getElem?_map, Option.map_eq_some_iff] at htokens
    obtain ⟨r, hr, rfl⟩ := htokens
    obtain rfl : rank = r := by
      have hlt := (List.getElem?_eq_some_iff.mp hr).1
      rw [getElem?_range (by simpa using hlt)] at hr
      exact Option.some.inj hr
    have howed : ∀ d ∈ buffer.deliver round rank (owed m rank sent),
        d.indices.length = d.scores.length ∧ ∀ i ∈ d.indices, i = -1 ∨ 0 ≤ i ∧ i < m := by
      intro d hd
      exact mem_owed hvalid ((buffer.once round rank _).mem_iff.mp hd)
    exact runPendingChunk_eq cfg m rank _ (fun d hd => (howed d hd).1) fun d hd => (howed d hd).2
  have hrun : runRound cfg m buffer round sent = some (sent.zipIdx.map fun e =>
      (range e.1.rows.length).map (combine received ((range sent.length).map fun rank =>
        (buffer.deliver round rank (owed m rank sent)).map (localSum cfg m rank)) e.2)) := by
    rw [runRound]
    simp only [Option.bind_eq_bind]
    rw [houtputs]
    rfl
  rw [hrun]
  congr 1
  apply ext_getElem?
  intro q
  cases hpart : parts[q]? with
  | none => simp [hsent, hpart]
  | some part =>
    have hmem := mem_of_getElem? hpart
    have hchunk : sent[q]? = some part.chunk := by
      rw [hsent, getElem?_map, hpart]
      rfl
    rw [getElem?_map, getElem?_zipIdx, hchunk, getElem?_map, hpart]
    simp only [Option.map_some, Option.some.injEq, zero_add]
    apply ext_getElem?
    intro i
    by_cases hi : i < part.x.length
    · have hentries : (part.x.zip (part.selected.zip part.scores))[i]? = some
          (part.x.getD i 0, part.selected.getD i [], part.scores.getD i []) := by
        have hs := (hvalid part hmem).selected_length
        have hc := (hvalid part hmem).scores_length
        simp [getD_eq_getElem?_getD, hi, hs, hc, List.zip]
      have hentry : part.chunk.entries[i]? = some (part.x.getD i 0,
          maskRow (part.selected.getD i []) (part.scores.getD i []), part.scores.getD i []) := by
        rw [entries_chunk, getElem?_map, hentries]
        rfl
      have hselected : ∀ e ∈ part.selected.getD i [], e < sent.length * m := by
        have hzip := (of_mem_zip (mem_of_getElem? hentries)).2
        rw [hlength]
        exact (hvalid part hmem).selected_lt _ (of_mem_zip hzip).1
      have hrouted : (part.routed cfg)[i]? = some (routedToken cfg (part.x.getD i 0)
          (part.selected.getD i []) (part.scores.getD i [])) := by
        rw [Part.routed, ← map_uncurry_zip_eq_zipWith, getElem?_map, hentries]
        rfl
      rw [getElem?_map, getElem?_range (show i < part.chunk.rows.length from hi), hrouted,
        Option.map_some, combine_eq cfg m buffer round hchunk hentry,
        sum_localSum cfg (q, i) _ _ hselected hzero]
    · have hnone : part.x.length ≤ i := le_of_not_gt hi
      rw [getElem?_eq_none (by simpa [Part.chunk] using hnone),
        getElem?_eq_none (by simpa [Part.routed] using .inl hnone)]

/-! ## Chunks -/

section

omit [CommRing R] [AddCommGroup V] [Module R V] [DecidableEq R]

theorem flatMap_slices {β : Type} (l : List β) (size k : Nat) :
    ((range k).flatMap fun c => slice l (c * size) (min (c * size + size) l.length)) =
      l.take (k * size) := by
  induction k with
  | zero => simp
  | succ k ih =>
    rw [range_succ, flatMap_append, ih, flatMap_singleton, Nat.succ_mul, take_add]
    congr 1
    rw [slice, take_eq_take_iff, length_drop]
    omega

/-- The chunks of a rank give back its rows; those of the padding come last. -/
theorem take_flatMap_chunkBounds {β : Type} (l : List β) {size rounds : Nat} (hsize : 0 < size)
    (hrounds : (l.length + size - 1) / size ≤ rounds) :
    ((range rounds).flatMap fun round =>
      slice l ((chunkBounds size l.length rounds).getD round (0, 1)).1
        ((chunkBounds size l.length rounds).getD round (0, 1)).2).take l.length = l := by
  have hlength : (chunkBounds size l.length rounds).length = rounds := by
    simp only [chunkBounds, length_append, length_map, length_range, length_replicate]
    omega
  have hbounds : (range rounds).map (fun round =>
      (chunkBounds size l.length rounds).getD round (0, 1)) = chunkBounds size l.length rounds := by
    apply ext_getElem?
    intro round
    by_cases hround : round < rounds
    · have hlt : round < (chunkBounds size l.length rounds).length := by omega
      simp [hround, getD_eq_getElem?_getD, hlt]
    · rw [getElem?_eq_none (by simpa using hround), getElem?_eq_none (by omega)]
  have hflat : ((range rounds).flatMap fun round =>
      slice l ((chunkBounds size l.length rounds).getD round (0, 1)).1
        ((chunkBounds size l.length rounds).getD round (0, 1)).2) =
      (chunkBounds size l.length rounds).flatMap fun bounds => slice l bounds.1 bounds.2 := by
    conv_rhs => rw [← hbounds, flatMap_map]
  have hall : l.length ≤ (l.length + size - 1) / size * size := by
    have hsplit := Nat.div_add_mod (l.length + size - 1) size
    have hmod := Nat.mod_lt (l.length + size - 1) hsize
    rw [mul_comm]
    omega
  rw [hflat, chunkBounds, flatMap_append, flatMap_map]
  have hown := flatMap_slices l size ((l.length + size - 1) / size)
  rw [take_of_length_le hall] at hown
  rw [hown, take_left']
  rfl

end

theorem le_numChunks (deepepTokenChunkSize : Option Nat) {lens : List Nat} {len : Nat}
    (hlen : len ∈ lens) (hpos : 0 < len) :
    0 < chunkSize deepepTokenChunkSize len ∧
      (len + chunkSize deepepTokenChunkSize len - 1) / chunkSize deepepTokenChunkSize len ≤
        numChunks deepepTokenChunkSize lens := by
  have hone : (len + len - 1) / len ≤ 1 := by
    rw [Nat.div_le_iff_le_mul_add_pred hpos]
    omega
  match deepepTokenChunkSize with
  | none => exact ⟨hpos, hone⟩
  | some 0 => exact ⟨hpos, hone⟩
  | some (n + 1) =>
    refine ⟨Nat.succ_pos n, ?_⟩
    exact (Chunks.le_foldl_max _ 0).2 _ (mem_map_of_mem hlen)

/-! ## The layer -/

/-- The tokens of a rank in one round. -/
def roundPart (cfg : Config V) (deepepTokenChunkSize : Option Nat) (rounds round : Nat)
    (tokens : Tokens V R cfg.topK) : Part V R :=
  let bounds := (chunkBounds (chunkSize deepepTokenChunkSize tokens.x.length) tokens.x.length
    rounds).getD round (0, 1)
  ⟨slice tokens.x bounds.1 bounds.2, slice tokens.selected bounds.1 bounds.2,
    slice tokens.scores bounds.1 bounds.2⟩

omit [DecidableEq R] [CommRing R] [AddCommGroup V] [Module R V] in
theorem roundPart_valid (deepepTokenChunkSize : Option Nat) (rounds round : Nat)
    (tokens : Tokens V R cfg.topK) {numExperts : Nat}
    (hselected : ∀ row ∈ tokens.selected, ∀ e ∈ row, e < numExperts) :
    (roundPart cfg deepepTokenChunkSize rounds round tokens).Valid numExperts := by
  have hmem : ∀ {β : Type} {l : List β} {a b : Nat} {x : β}, x ∈ slice l a b → x ∈ l := by
    intro β l a b x hx
    exact mem_of_mem_drop (mem_of_mem_take hx)
  constructor
  · simp [roundPart, slice, tokens.selected_length]
  · simp [roundPart, slice, tokens.scores_length]
  · intro entry hentry
    obtain ⟨hs, hc⟩ := of_mem_zip hentry
    rw [tokens.selected_topK _ (hmem hs), tokens.scores_topK _ (hmem hc)]
  · intro row hrow
    exact hselected row (hmem hrow)

omit [DecidableEq R] in
theorem roundPart_routed (deepepTokenChunkSize : Option Nat) (rounds round : Nat)
    (tokens : Tokens V R cfg.topK) :
    (roundPart cfg deepepTokenChunkSize rounds round tokens).routed cfg =
      slice (routedRows cfg tokens)
        ((chunkBounds (chunkSize deepepTokenChunkSize tokens.x.length) tokens.x.length
          rounds).getD round (0, 1)).1
        ((chunkBounds (chunkSize deepepTokenChunkSize tokens.x.length) tokens.x.length
          rounds).getD round (0, 1)).2 := by
  simp only [roundPart, Part.routed, routedRows, slice, List.zip, take_zipWith, drop_zipWith]

/-- The layer on every rank of the group gives the shared expert's rows with the contributions of the
selected experts. -/
theorem runDeepepRoutedExperts_eq (perRank : Nat) (buffer : Buffer V R)
    (deepepTokenChunkSize : Option Nat) (ranks : List (Tokens V R cfg.topK))
    (hselected : ∀ tokens ∈ ranks, ∀ row ∈ tokens.selected, ∀ e ∈ row, e < ranks.length * perRank)
    (hzero : cfg.scoreBeforeExperts = true → ∀ e, cfg.expert e 0 = 0) :
    runDeepepRoutedExperts cfg perRank buffer deepepTokenChunkSize ranks =
      some (ranks.map (layerOutput cfg)) := by
  set rounds := numChunks deepepTokenChunkSize (ranks.map fun tokens => tokens.x.length)
    with hrounds
  have hrun : ∀ round, runRound cfg perRank buffer round
      (zipWith (fun tokens bounds => sendChunk tokens (bounds.getD round (0, 1))) ranks
        (ranks.map fun tokens =>
          chunkBounds (chunkSize deepepTokenChunkSize tokens.x.length) tokens.x.length rounds)) =
      some (ranks.map fun tokens =>
        (roundPart cfg deepepTokenChunkSize rounds round tokens).routed cfg) := by
    intro round
    have hvalid : ∀ part ∈ ranks.map (roundPart cfg deepepTokenChunkSize rounds round),
        part.Valid ((ranks.map (roundPart cfg deepepTokenChunkSize rounds round)).length * perRank) := by
      intro part hpart
      obtain ⟨tokens, htokens, rfl⟩ := mem_map.mp hpart
      rw [length_map]
      exact roundPart_valid cfg _ _ _ tokens (hselected tokens htokens)
    have hparts := runRound_eq cfg perRank buffer round hvalid hzero
    rw [map_map, map_map] at hparts
    rw [zipWith_map_right, zipWith_self]
    exact hparts
  simp only [runDeepepRoutedExperts, Option.bind_eq_bind]
  rw [← hrounds, Results.mapM_eq_some_map fun round _ => hrun round, Option.bind_some]
  congr 1
  apply ext_getElem?
  intro rank
  cases htokens : ranks[rank]? with
  | none => simp [htokens]
  | some tokens =>
    have hlength : (routedRows cfg tokens).length = tokens.x.length := by
      rw [routedRows_eq, length_map, length_range]
    have hflat : (((range rounds).map fun round => ranks.map fun tokens =>
        (roundPart cfg deepepTokenChunkSize rounds round tokens).routed cfg).flatMap
          fun rows => rows.getD rank []).take tokens.x.length = routedRows cfg tokens := by
      have hmem : tokens.x.length ∈ ranks.map fun tokens => tokens.x.length :=
        mem_map_of_mem (mem_of_getElem? htokens)
      obtain ⟨hsize, hroom⟩ := le_numChunks deepepTokenChunkSize hmem
        (length_pos_iff.mpr tokens.nonempty)
      rw [← hlength] at hsize hroom
      have hchunks := take_flatMap_chunkBounds (routedRows cfg tokens) hsize hroom
      rw [hlength, ← hrounds] at hchunks
      have hrow : ∀ round, (ranks.map fun tokens =>
          (roundPart cfg deepepTokenChunkSize rounds round tokens).routed cfg).getD rank [] =
          (roundPart cfg deepepTokenChunkSize rounds round tokens).routed cfg := by
        intro round
        rw [getD_eq_getElem?_getD, getElem?_map, htokens]
        rfl
      rw [flatMap_map]
      simp only [hrow]
      simp only [roundPart_routed]
      exact hchunks
    rw [getElem?_map, getElem?_zipIdx, htokens, getElem?_map, htokens]
    rw [Option.map_some, Option.map_some, Option.map_some, zero_add, hflat]
    cases hshared : cfg.sharedExpert with
    | none => simp only [layerOutput, hshared]
    | some shared => simp only [layerOutput, hshared]

/-- Expert parallelism changes nothing: every rank gets, for each of its tokens in order, the shared
expert's row with the weighted contributions of the selected experts, as the local layer computes
them; and the counts of the permuted rows are the lengths of their runs. -/
theorem expert_parallel_eq_local (cfg : Config V) (perRank : Nat) (buffer : Buffer V R)
    (deepepTokenChunkSize : Option Nat) (ranks : List (Tokens V R cfg.topK))
    (hexperts : cfg.numExperts = ranks.length * perRank)
    (hselected : ∀ tokens ∈ ranks, ∀ row ∈ tokens.selected, ∀ e ∈ row, e < cfg.numExperts)
    (hzero : cfg.scoreBeforeExperts = true → ∀ e, cfg.expert e 0 = 0) :
    runDeepepRoutedExperts cfg perRank buffer deepepTokenChunkSize ranks =
        some (ranks.map (layerOutput cfg)) ∧
      (∀ tokens ∈ ranks, forward cfg tokens = some (layerOutput cfg tokens)) ∧
      ∀ (hidden : List V) (indices : List (List Int)) (scores : List (List R))
        (rows : List V) (permutedScores : List R) (tokens counts : List Nat),
        Forall₂ (fun is ss => is.length = ss.length) indices scores →
        permuteTokens hidden indices scores perRank = some (rows, permutedScores, tokens, counts) →
        ∃ runs : List (List (Nat × Nat × R)), runs = (range perRank).map
            (fun e => (slots indices scores).filter fun slot => slot.2.1 = e) ∧
          counts = runs.map List.length ∧ tokens = runs.flatten.map (fun slot => slot.1) ∧
          rows = runs.flatten.map (fun slot => hidden.getD slot.1 0) ∧
          permutedScores = runs.flatten.map fun slot => slot.2.2 := by
  refine ⟨?_, ?_, ?_⟩
  · rw [hexperts] at hselected
    exact runDeepepRoutedExperts_eq cfg perRank buffer deepepTokenChunkSize ranks hselected hzero
  · intro tokens htokens
    exact forward_eq cfg tokens (hselected tokens htokens)
  · intro hidden indices scores rows permutedScores tokens counts hshape hpermute
    exact permuteTokens_runs hshape hpermute

/-- Four experts on two ranks, a score of zero, and chunks of one token. -/
theorem expert_parallel_eq_local_two :
    runDeepepRoutedExperts (V := Int) (R := Int)
        ⟨4, 2, fun e x => (e + 1) * x * x, none, true, false, false⟩ 2
        ⟨fun _ _ tokens => tokens.reverse, fun _ _ tokens => tokens.reverse_perm⟩ (some 1)
        [⟨[1, 2], [[0, 3], [1, 2]], [[1, 2], [0, 1]], by simp, rfl, rfl, by simp, by simp⟩,
          ⟨[3], [[3, 1]], [[1, 1]], by simp, rfl, rfl, by simp, by simp⟩] =
      some [[17, 12], [54]] := by
  have hlayer := (expert_parallel_eq_local (V := Int) (R := Int)
    ⟨4, 2, fun e x => (e + 1) * x * x, none, true, false, false⟩ 2
    ⟨fun _ _ tokens => tokens.reverse, fun _ _ tokens => tokens.reverse_perm⟩ (some 1)
    [⟨[1, 2], [[0, 3], [1, 2]], [[1, 2], [0, 1]], by simp, rfl, rfl, by simp, by simp⟩,
      ⟨[3], [[3, 1]], [[1, 1]], by simp, rfl, rfl, by simp, by simp⟩]
    rfl (by decide) (by simp)).1
  rw [hlayer]
  decide

end ArcticPlatform.ExpertParallel
