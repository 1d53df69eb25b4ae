import ArcticPlatform.Engram.Primes
import ArcticPlatform.Library.Slices

/-!
# Layout of the Engram tables

An embedding of `EngramLayout.from_config`: prime buckets for every layer, n-gram size and head.

Main results:

- Theorem `fromConfig_primes`: the primes of all layers are distinct.
- Theorem `existsUnique_bucket`: the buckets of a layer tile its table.
- Theorem `sum_lt_of_distinct`: distinct primes below the limit of the test add up in an int64.
-/

namespace ArcticPlatform.Engram

open Slices List

/-! ## The configuration and the layout -/

/-- What the layout uses of a `DeepseekV41Config`. -/
structure Config where
  engramLayerIds : List Int
  engramNumEmbeddings : List Int
  engramMaxNgramSize : Int
  engramNHeads : Int
  engramVocabSize : Int
  engramHeadDim : Int
  engramCompressedVocabSize : Int

/-- `EngramLayout`. -/
structure EngramLayout where
  maxNgramSize : Nat
  layerIds : List Int
  numEmbeddings : List Int
  primes : List (List (List Nat))
  offsets : List (List Nat)
  nHeads : Nat
  headDim : Int
  compressedVocabSize : Int

/-- A loop that makes a value in every round. -/
def collect {σ β : Type} (round : σ → β × σ) : Nat → σ → List β × σ
  | 0, s => ([], s)
  | n + 1, s => ((round s).1 :: (collect round n (round s).2).1, (collect round n (round s).2).2)

/-- The prime of a head, from the one before it and the primes that have been seen. -/
def nextHead (state : Int × List Nat) : Nat × Int × List Nat :=
  (findNextPrime state.1 state.2, findNextPrime state.1 state.2,
    findNextPrime state.1 state.2 :: state.2)

/-- The primes of an n-gram size. -/
def nextNgram (config : Config) (seen : List Nat) : List Nat × List Nat :=
  let result := collect nextHead config.engramNHeads.toNat (config.engramVocabSize - 1, seen)
  (result.1, result.2.2)

/-- The primes of a layer. -/
def nextLayer (config : Config) (seen : List Nat) : List (List Nat) × List Nat :=
  collect (nextNgram config) (config.engramMaxNgramSize - 1).toNat seen

/-- `np.cumsum`. -/
def cumsum (acc : Nat) : List Nat → List Nat
  | [] => []
  | x :: rest => (acc + x) :: cumsum (acc + x) rest

/-- `EngramLayout.from_config`. -/
def fromConfig (config : Config) : Except String (Option EngramLayout) :=
  let layers := config.engramLayerIds
  let sizes := config.engramNumEmbeddings
  if layers.isEmpty then .ok none
  else if sizes.length ≠ layers.length then
    .error ("engram_num_embeddings (" ++ toString sizes.length ++
      ") must match engram_layer_ids (" ++ toString layers.length ++ ")")
  else if config.engramMaxNgramSize < 2 ∨ config.engramNHeads < 1 then
    .error ("engram n-grams need max_ngram_size >= 2 and n_heads >= 1, got " ++
      toString config.engramMaxNgramSize ++ ", " ++ toString config.engramNHeads)
  else
    let primes := (collect (nextLayer config) layers.length []).1
    .ok (some {
      maxNgramSize := config.engramMaxNgramSize.toNat
      layerIds := layers
      numEmbeddings := sizes
      primes
      offsets := primes.map fun layer => cumsum 0 (0 :: layer.flatten.dropLast)
      nHeads := config.engramNHeads.toNat
      headDim := config.engramHeadDim
      compressedVocabSize := config.engramCompressedVocabSize })

variable {config : Config} {layout : EngramLayout}

variable {σ β : Type}

theorem length_collect (round : σ → β × σ) (n : Nat) (s : σ) :
    (collect round n s).1.length = n := by
  induction n generalizing s with
  | zero => rfl
  | succ n ih => rw [collect, length_cons, ih]

theorem mem_collect {round : σ → β × σ} {n : Nat} {s : σ} {b : β} (h : b ∈ (collect round n s).1) :
    ∃ s', b = (round s').1 := by
  induction n generalizing s with
  | zero => cases h
  | succ n ih =>
    rcases mem_cons.mp h with rfl | hrest
    · exact ⟨s, rfl⟩
    · exact ih hrest

/-! ## Distinct primes -/

/-- A round hands out primes, puts them before those that have been seen, and repeats none. -/
def HandsOut {σ β : Type} (seen : σ → List Nat) (out : β → List Nat) (round : σ → β × σ) : Prop :=
  ∀ s, (seen s).Nodup → (seen (round s).2).Nodup ∧
    seen (round s).2 = (out (round s).1).reverse ++ seen s ∧ ∀ p ∈ out (round s).1, isPrime p = true

theorem HandsOut.collect {seen : σ → List Nat} {out : β → List Nat} {round : σ → β × σ}
    (h : HandsOut seen out round) (n : Nat) :
    HandsOut seen (fun l : List β => l.flatMap out) (collect round n) := by
  induction n with
  | zero =>
    intro s hs
    exact ⟨hs, rfl, by simp [Engram.collect]⟩
  | succ n ih =>
    intro s hs
    obtain ⟨hnodup, hseen, hprime⟩ := h s hs
    obtain ⟨hnodup', hseen', hprime'⟩ := ih (round s).2 hnodup
    refine ⟨hnodup', ?_, ?_⟩
    · dsimp only [Engram.collect] at hseen' ⊢
      rw [hseen', hseen, flatMap_cons, reverse_append, append_assoc]
    · intro p hp
      dsimp only [Engram.collect] at hp
      rw [flatMap_cons] at hp
      rcases mem_append.mp hp with hfirst | hrest
      · exact hprime p hfirst
      · exact hprime' p hrest

theorem handsOut_nextHead : HandsOut (fun s : Int × List Nat => s.2) (fun p : Nat => [p]) nextHead := by
  intro s hs
  obtain ⟨-, hprime, hnew, -⟩ := findNextPrime_spec s.1 s.2
  refine ⟨nodup_cons.mpr ⟨hnew, hs⟩, rfl, fun p hp => ?_⟩
  rw [mem_singleton.mp hp]
  exact hprime

theorem handsOut_nextNgram (config : Config) :
    HandsOut (fun s : List Nat => s) (fun sizes : List Nat => sizes) (nextNgram config) := by
  intro s hs
  have h := handsOut_nextHead.collect config.engramNHeads.toNat (config.engramVocabSize - 1, s) hs
  simpa [nextNgram] using h

theorem handsOut_nextLayer (config : Config) :
    HandsOut (fun s : List Nat => s) (fun layer : List (List Nat) => layer.flatten)
      (nextLayer config) := by
  intro s hs
  have h := (handsOut_nextNgram config).collect (config.engramMaxNgramSize - 1).toNat s hs
  simpa [nextLayer] using h

section

variable (h : fromConfig config = .ok (some layout))
include h

theorem fromConfig_eq :
    2 ≤ config.engramMaxNgramSize ∧ 1 ≤ config.engramNHeads ∧
      layout.maxNgramSize = config.engramMaxNgramSize.toNat ∧
      layout.layerIds = config.engramLayerIds ∧
      layout.primes = (collect (nextLayer config) config.engramLayerIds.length []).1 ∧
      layout.offsets = layout.primes.map (fun layer => cumsum 0 (0 :: layer.flatten.dropLast)) ∧
      layout.compressedVocabSize = config.engramCompressedVocabSize := by
  simp only [fromConfig] at h
  split at h
  · cases h
  · split at h
    · cases h
    · split at h
      · cases h
      · rename_i hcheck
        cases h
        exact ⟨by omega, by omega, rfl, rfl, rfl, rfl, rfl⟩

/-- The primes of all layers are distinct, and have passed the test. -/
theorem fromConfig_primes :
    (layout.primes.flatMap List.flatten).Nodup ∧
      ∀ p ∈ layout.primes.flatMap List.flatten, isPrime p = true := by
  obtain ⟨-, -, -, -, hprimes, -⟩ := fromConfig_eq h
  obtain ⟨hnodup, hseen, hprime⟩ :=
    (handsOut_nextLayer config).collect config.engramLayerIds.length [] nodup_nil
  rw [hprimes]
  rw [hseen, append_nil] at hnodup
  exact ⟨nodup_reverse.mp hnodup, hprime⟩

theorem fromConfig_layer {layer : List (List Nat)}
    (hlayer : layer ∈ layout.primes) : layer.length + 1 = layout.maxNgramSize ∧ layer.flatten ≠ [] := by
  obtain ⟨hngram, hheads, hmax, -, hprimes, -⟩ := fromConfig_eq h
  rw [hprimes] at hlayer
  obtain ⟨s, rfl⟩ := mem_collect hlayer
  have hlength : (nextLayer config s).1.length = (config.engramMaxNgramSize - 1).toNat :=
    length_collect ..
  refine ⟨by omega, fun hnil => ?_⟩
  obtain ⟨sizes, hsizes⟩ : ∃ sizes, sizes ∈ (nextLayer config s).1 :=
    exists_mem_of_length_pos (by omega)
  obtain ⟨s', rfl⟩ := mem_collect hsizes
  have hempty := flatten_eq_nil_iff.mp hnil _ hsizes
  have hheads' : (nextNgram config s').1.length = config.engramNHeads.toNat :=
    length_collect nextHead config.engramNHeads.toNat (config.engramVocabSize - 1, s')
  rw [hempty, length_nil] at hheads'
  omega

end

/-! ## Buckets -/

theorem length_cumsum (l : List Nat) (acc : Nat) : (cumsum acc l).length = l.length := by
  induction l generalizing acc with
  | nil => rfl
  | cons x rest ih => rw [cumsum, length_cons, length_cons, ih]

theorem getElem?_cumsum (l : List Nat) (acc i : Nat) (hi : i < l.length) :
    (cumsum acc l)[i]? = some (acc + (l.take (i + 1)).sum) := by
  induction l generalizing acc i with
  | nil => simp at hi
  | cons x rest ih =>
    cases i with
    | zero => simp [cumsum]
    | succ i =>
      rw [cumsum, getElem?_cons_succ, ih (acc + x) i (by simpa using hi), take_succ_cons,
        sum_cons, add_assoc]

variable {sizes : List Nat}

theorem getElem?_offsets {c : Nat} (hc : c < sizes.length) :
    (cumsum 0 (0 :: sizes.dropLast))[c]? = some (sizes.take c).sum := by
  have hlength : c < (0 :: sizes.dropLast).length := by
    simp only [length_cons, length_dropLast]
    omega
  rw [getElem?_cumsum _ _ _ hlength, take_succ_cons, sum_cons, zero_add, zero_add,
    dropLast_eq_take, take_take, min_eq_left (by omega)]

/-- A place of the table is in a bucket. -/
def InBucket (offsets sizes : List Nat) (c x : Nat) : Prop :=
  ∃ offset size, offsets[c]? = some offset ∧ sizes[c]? = some size ∧ offset ≤ x ∧ x < offset + size

theorem inBucket_iff {c x : Nat} :
    InBucket (cumsum 0 (0 :: sizes.dropLast)) sizes c x ↔
      c < sizes.length ∧ (sizes.take c).sum ≤ x ∧ x < (sizes.take (c + 1)).sum := by
  constructor
  · rintro ⟨offset, size, hoffset, hsize, hle, hlt⟩
    obtain ⟨hc, hget⟩ := List.getElem?_eq_some_iff.mp hsize
    rw [getElem?_offsets hc] at hoffset
    cases hoffset
    rw [take_succ_eq_append_getElem hc, sum_append, sum_singleton, hget]
    exact ⟨hc, hle, hlt⟩
  · rintro ⟨hc, hle, hlt⟩
    rw [take_succ_eq_append_getElem hc, sum_append, sum_singleton] at hlt
    exact ⟨_, _, getElem?_offsets hc, getElem?_eq_getElem hc, hle, hlt⟩

/-- The buckets tile the table: every place is in one of them, and in no second one. -/
theorem existsUnique_bucket (sizes : List Nat) (x : Nat) :
    x < sizes.sum ↔ ∃! c, InBucket (cumsum 0 (0 :: sizes.dropLast)) sizes c x := by
  constructor
  · intro hx
    obtain ⟨c, hc, hunique⟩ := existsUnique_block hx
    exact ⟨c, inBucket_iff.mpr hc, fun d hd => hunique d (inBucket_iff.mp hd)⟩
  · rintro ⟨c, hc, -⟩
    obtain ⟨-, -, hlt⟩ := inBucket_iff.mp hc
    exact lt_of_lt_of_le hlt (sum_take_le_sum sizes (c + 1))

/-! ## The size of a table -/

/-- Below this number the bases decide primality. -/
def exactBelow : Nat := 4759123141

theorem sum_odd_range (n : Nat) :
    ∑ x ∈ Finset.range (2 * n), (if x % 2 = 1 then x else 0) = n ^ 2 := by
  induction n with
  | zero => rfl
  | succ n ih =>
    rw [show 2 * (n + 1) = 2 * n + 1 + 1 by omega, Finset.sum_range_succ, Finset.sum_range_succ, ih,
      if_neg (by omega), if_pos (by omega)]
    ring

/-- Distinct numbers that pass the test add up in an int64 as long as the test is exact for them. -/
theorem sum_lt_of_distinct (hnodup : sizes.Nodup) (hprime : ∀ p ∈ sizes, isPrime p = true)
    (hexact : ∀ p ∈ sizes, p < exactBelow) : sizes.sum < 2 ^ 63 := by
  have hodd : ∀ p ∈ sizes.toFinset, p ≤ (if p % 2 = 1 then p else 0) + if p = 2 then 2 else 0 := by
    intro p hp
    rcases isPrime_odd (hprime p (mem_toFinset.mp hp)) with rfl | hp
    · simp
    · rw [if_pos hp]
      omega
  have hsub : sizes.toFinset ⊆ Finset.range (2 * 2379561571) := by
    intro p hp
    have := hexact p (mem_toFinset.mp hp)
    rw [exactBelow] at this
    exact Finset.mem_range.mpr (by omega)
  calc sizes.sum
      = ∑ p ∈ sizes.toFinset, p := by rw [sum_toFinset _ hnodup, map_id']
    _ ≤ ∑ p ∈ sizes.toFinset, ((if p % 2 = 1 then p else 0) + if p = 2 then 2 else 0) :=
        Finset.sum_le_sum hodd
    _ ≤ 2379561571 ^ 2 + 2 := by
        rw [Finset.sum_add_distrib, ← sum_odd_range]
        refine Nat.add_le_add (Finset.sum_le_sum_of_subset hsub) ?_
        rw [Finset.sum_ite_eq']
        split <;> omega
    _ < 2 ^ 63 := by norm_num

end ArcticPlatform.Engram
