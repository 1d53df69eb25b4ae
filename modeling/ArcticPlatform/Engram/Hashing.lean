import ArcticPlatform.Engram.Layout

/-!
# Engram hashes

An embedding of `compute_hash_multipliers`, `lookback_tokens` and `hash_ngrams`, with the
wrapping arithmetic of int64 tensors.  The multipliers come from draws of a random generator.

Main results:

- Theorem `lookback_eq`: the tokens that are hashed at a position.
- Theorem `mul_multiplier`: products do not wrap.
- Theorem `hashes_in_table`: hashes stay in the buckets of their columns.
-/

namespace ArcticPlatform.Engram

open List

/-- An element of a `torch.long` tensor. -/
abbrev Long := BitVec 64

/-! ## Lookback -/

/-- `DEAD_ID`. -/
def deadId : Long := -1

/-- The document of each position of a row. -/
def documentOf (seqLens : Option (List Nat)) {length : Nat} (pos : Fin length) : Nat :=
  match seqLens with
  | none => 0
  | some lengths =>
    (lengths.zipIdx.flatMap fun entry => replicate entry.1 entry.2).getD pos.val 0

/-- `_document_ids`, for a row. -/
def documentIds (seqLens : Option (List Nat)) (length : Nat) : Except String (Fin length → Nat) :=
  if seqLens.any fun lengths => lengths.sum ≠ length then
    .error ("seq_lens covers " ++ toString ((seqLens.map sum).getD 0) ++
      " tokens, hashes have " ++ toString length)
  else .ok (documentOf seqLens)

section Lookback

variable {length : Nat}

/-- The position that is some places before, or the first one. -/
def back (pos : Fin length) (shift : Nat) : Fin length :=
  ⟨pos.val - shift, lt_of_le_of_lt (Nat.sub_le ..) pos.isLt⟩

variable (compressed : Fin length → Long) (dead : Fin length → Bool) (documents : Fin length → Nat)
  (padId : Long) (pos : Fin length)

/-- The columns of `lookback_tokens` at a position, from a shift on. -/
def lookback : Nat → Nat → Bool → List Long
  | 0, _, _ => []
  | n + 1, shift, blocked =>
    let source := if dead (back pos shift) then deadId else compressed (back pos shift)
    let blocked := blocked || decide (pos.val < shift) || decide (source = deadId) ||
      decide (documents (back pos shift) ≠ documents pos)
    (if blocked then padId else source) :: lookback n (shift + 1) blocked

/-- The tokens back to the start of the document, a dead token, or the limit. -/
def visible : Nat → Nat → List Long
  | 0, _ => []
  | n + 1, shift =>
    if shift ≤ pos.val ∧ dead (back pos shift) = false ∧ documents (back pos shift) = documents pos then
      compressed (back pos shift) :: visible n (shift + 1)
    else []

variable {compressed dead documents padId pos}

theorem lookback_blocked (n shift : Nat) :
    lookback compressed dead documents padId pos n shift true = replicate n padId := by
  induction n generalizing shift with
  | zero => rfl
  | succ n ih =>
    simp only [lookback, Bool.true_or, if_true]
    rw [ih, replicate_succ]

/-- What is hashed are the visible tokens, and then the pad token. -/
theorem lookback_eq (hlive : ∀ p, compressed p ≠ deadId) (n shift : Nat) :
    lookback compressed dead documents padId pos n shift false =
      visible compressed dead documents pos n shift ++
        replicate (n - (visible compressed dead documents pos n shift).length) padId := by
  induction n generalizing shift with
  | zero => rfl
  | succ n ih =>
    simp only [lookback, visible, Bool.false_or]
    by_cases h : shift ≤ pos.val ∧ dead (back pos shift) = false ∧
        documents (back pos shift) = documents pos
    · obtain ⟨hshift, hdead, hdocument⟩ := h
      have hnot : ¬ pos.val < shift := not_lt.mpr hshift
      simp only [hdead, hdocument, hshift, hnot, hlive, if_true, if_false, and_self, ne_eq,
        not_true_eq_false, decide_false, Bool.or_self, Bool.false_eq_true]
      rw [ih (shift + 1), cons_append, length_cons, Nat.add_sub_add_right]
    · have hblocked : (decide (pos.val < shift) ||
          decide ((if dead (back pos shift) then deadId else compressed (back pos shift)) = deadId) ||
          decide (documents (back pos shift) ≠ documents pos)) = true := by
        by_contra hfalse
        simp only [Bool.or_eq_true, decide_eq_true_eq, not_or, not_lt, not_not] at hfalse
        refine h ⟨hfalse.1.1, ?_, hfalse.2⟩
        by_contra hdead
        exact hfalse.1.2 (if_pos (by simpa using hdead))
      rw [if_neg h, hblocked, if_pos rfl, lookback_blocked]
      rfl

theorem length_lookback (n shift : Nat) (blocked : Bool) :
    (lookback compressed dead documents padId pos n shift blocked).length = n := by
  induction n generalizing shift blocked with
  | zero => rfl
  | succ n ih => rw [lookback, length_cons, ih]

theorem mem_visible {n shift : Nat} {t : Long}
    (h : t ∈ visible compressed dead documents pos n shift) : ∃ p, t = compressed p := by
  induction n generalizing shift with
  | zero => cases h
  | succ n ih =>
    rw [visible] at h
    split at h
    · rcases mem_cons.mp h with rfl | hrest
      · exact ⟨_, rfl⟩
      · exact ih hrest
    · cases h

end Lookback

/-- `lookback_tokens`. -/
def lookbackTokens {batch length : Nat} (compressed : Fin batch → Fin length → Long)
    (dead : Fin batch → Fin length → Bool) (padId : Long) (maxNgramSize : Nat)
    (seqLens : Option (List Nat)) : Except String (Fin batch → Fin length → List Long) :=
  (documentIds seqLens length).map fun documents b pos =>
    lookback (compressed b) (dead b) documents padId pos maxNgramSize 0 false

/-! ## Hashes -/

/-- `compute_hash_multipliers`; `integers` draws a number of values below a bound, for a
seed. -/
def computeHashMultipliers (integers : Int → Int → Nat → List Int) (layerIds : List Int)
    (maxNgramSize : Nat) (compressedVocabSize : Int) : List (List Long) :=
  let maxLong : Int := 2 ^ 63 - 1
  let multiplierBound := max 1 ((maxLong.fdiv compressedVocabSize).fdiv 2)
  layerIds.map fun layerId =>
    (integers (10007 * layerId) multiplierBound maxNgramSize).map fun value =>
      BitVec.ofInt 64 value * 2 + 1

/-- The loop of `hash_ngrams`. -/
def rollingHashes : Long → List Long → List (List Nat) → List Long
  | rolling, product :: products, sizes :: primes =>
    (sizes.map fun prime => (rolling ^^^ product).smod (BitVec.ofNat 64 prime)) ++
      rollingHashes (rolling ^^^ product) products primes
  | _, _, _ => []

/-- The hashes before the offsets are added. -/
def bareHashes (tokens multipliers : List Long) (primes : List (List Nat)) : List Long :=
  match zipWith (· * ·) tokens multipliers with
  | [] => []
  | rolling :: products => rollingHashes rolling products primes

/-- `hash_ngrams` at a position, for a layer. -/
def hashNgrams (tokens multipliers : List Long) (primes : List (List Nat)) (offsets : List Nat) :
    List Long :=
  zipWith (fun hash offset => hash + BitVec.ofNat 64 offset) (bareHashes tokens multipliers primes)
    offsets

/-- The tables of a layer: its multipliers, primes and offsets. -/
structure Tables where
  multipliers : List Long
  primes : List (List Nat)
  offsets : List Nat

/-- The tables of all layers. -/
def EngramLayout.tables (layout : EngramLayout) (integers : Int → Int → Nat → List Int) : List Tables :=
  zipWith (fun multipliers table => ⟨multipliers, table.1, table.2⟩)
    (computeHashMultipliers integers layout.layerIds layout.maxNgramSize layout.compressedVocabSize)
    (layout.primes.zip layout.offsets)

/-- The hashes of a position, for each layer. -/
def EngramLayout.hash (layout : EngramLayout) (integers : Int → Int → Nat → List Int)
    (tokens : List Long) : List (List Long) :=
  (layout.tables integers).map fun table =>
    hashNgrams tokens table.multipliers table.primes table.offsets

/-- The generator draws as many values as it is asked for, from zero up to the bound. -/
def Draws (integers : Int → Int → Nat → List Int) : Prop :=
  ∀ seed high size, 0 < high → (integers seed high size).length = size ∧
    ∀ value ∈ integers seed high size, 0 ≤ value ∧ value < high

/-! ## Products -/

theorem toInt_lt (x : Long) : x.toInt < 2 ^ 63 := by
  have := BitVec.two_mul_toInt_lt (x := x)
  omega

theorem toInt_ofInt_of_fits {x : Int} (hlow : -2 ^ 63 ≤ x) (hhigh : x < 2 ^ 63) :
    (BitVec.ofInt 64 x).toInt = x := by
  rw [BitVec.toInt_ofInt]
  exact Int.bmod_eq_of_le (by norm_num; omega) (by norm_num; omega)

/-- A token times a multiplier does not wrap. -/
theorem mul_multiplier {C value : Int} {t : Long} (ht : 0 ≤ t.toInt) (htC : t.toInt < C)
    (hvalue : 0 ≤ value) (hbound : value < max 1 (((2 ^ 63 - 1 : Int).fdiv C).fdiv 2)) :
    (t * (BitVec.ofInt 64 value * 2 + 1)).toInt =
      t.toInt * (BitVec.ofInt 64 value * 2 + 1 : Long).toInt := by
  have hC : 0 < C := by omega
  rw [Int.fdiv_eq_ediv_of_nonneg _ hC.le, Int.fdiv_eq_ediv_of_nonneg _ (by norm_num)] at hbound
  obtain ⟨q, hq⟩ : ∃ q : Int, q = (2 ^ 63 - 1) / C := ⟨_, rfl⟩
  have hqC : q * C ≤ 2 ^ 63 - 1 := hq ▸ Int.ediv_mul_le _ hC.ne'
  have hq0 : 0 ≤ q := hq ▸ Int.ediv_nonneg (by norm_num) hC.le
  rw [← hq] at hbound
  have ht63 := toInt_lt t
  -- The draw is zero, or the multiplier is below the quotient of the bound.
  have hprod : t.toInt * (2 * value + 1) < 2 ^ 63 := by
    rcases Int.lt_or_le value 1 with hzero | hone
    · obtain rfl : value = 0 := by omega
      omega
    · have hlt : 2 * value + 1 ≤ q := by omega
      have hle : t.toInt * (2 * value + 1) ≤ C * q := mul_le_mul htC.le hlt (by omega) hC.le
      rw [mul_comm C q] at hle
      omega
  have hfits : 2 * value + 1 < 2 ^ 63 := by
    rcases Int.lt_or_le value 1 with hzero | hone
    · omega
    · have hlt : 2 * value + 1 ≤ q := by omega
      have hle : q * 1 ≤ q * C := mul_le_mul_of_nonneg_left (by omega) hq0
      omega
  have hmultiplier : BitVec.ofInt 64 value * 2 + 1 = BitVec.ofInt 64 (2 * value + 1) := by
    rw [BitVec.ofInt_add, BitVec.ofInt_mul, BitVec.mul_comm]
    rfl
  have hnonneg : 0 ≤ t.toInt * (2 * value + 1) := mul_nonneg ht (by omega)
  rw [hmultiplier, BitVec.toInt_mul, toInt_ofInt_of_fits (by omega) hfits]
  exact Int.bmod_eq_of_le (by norm_num; omega) (by norm_num; omega)

/-! ## Buckets -/

theorem toInt_ofNat_of_fits {n : Nat} (h : n < 2 ^ 63) : (BitVec.ofNat 64 n).toInt = n := by
  rw [← BitVec.ofInt_natCast]
  exact toInt_ofInt_of_fits (by omega) (by omega)

theorem rollingHashes_lt (rolling : Long) {products : List Long} {primes : List (List Nat)}
    (hlength : products.length = primes.length)
    (hprimes : ∀ p ∈ primes.flatten, 0 < p ∧ p < 2 ^ 63) :
    Forall₂ (fun (hash : Long) (p : Nat) => 0 ≤ hash.toInt ∧ hash.toInt < p)
      (rollingHashes rolling products primes) primes.flatten := by
  induction primes generalizing rolling products with
  | nil =>
    obtain rfl := length_eq_zero_iff.mp hlength
    exact .nil
  | cons sizes primes ih =>
    match products, hlength with
    | product :: products, hlength =>
      rw [rollingHashes, flatten_cons]
      refine rel_append ?_ (ih _ (by simpa using hlength) fun p hp => hprimes p (by simp [hp]))
      rw [forall₂_map_left_iff, forall₂_same]
      intro p hp
      obtain ⟨hpos, hfits⟩ := hprimes p (by simp [hp])
      have hint : (0 : Int) < p := by omega
      rw [BitVec.toInt_smod, toInt_ofNat_of_fits hfits]
      exact ⟨Int.fmod_nonneg_of_pos _ hint, Int.fmod_lt_of_pos _ hint⟩

/-- No product and no sum of the hashes of a position wraps. -/
structure NoWrap (tokens : List Long) (table : Tables) : Prop where
  products : ∀ x ∈ tokens.zip table.multipliers, (x.1 * x.2).toInt = x.1.toInt * x.2.toInt
  sums : ∀ x ∈ (bareHashes tokens table.multipliers table.primes).zip table.offsets,
    (x.1 + BitVec.ofNat 64 x.2).toInt = x.1.toInt + x.2

/-- There is a hash for every column, in its bucket. -/
def Lands (hashes : List Long) (table : Tables) : Prop :=
  hashes.length = table.primes.flatten.length ∧ ∀ c hash, hashes[c]? = some hash →
    0 ≤ hash.toInt ∧ InBucket table.offsets table.primes.flatten c hash.toInt.toNat

variable {config : Config} {layout : EngramLayout} {integers : Int → Int → Nat → List Int}
  {table : Tables} {tokens : List Long}

section

variable (hlayout : fromConfig config = .ok (some layout))
include hlayout

theorem of_mem_tables (hdraws : Draws integers) (h : table ∈ layout.tables integers) :
    table.primes ∈ layout.primes ∧ table.offsets = cumsum 0 (0 :: table.primes.flatten.dropLast) ∧
      table.multipliers.length = layout.maxNgramSize ∧ ∀ m ∈ table.multipliers, ∃ value : Int,
        0 ≤ value ∧ value < max 1 (((2 ^ 63 - 1 : Int).fdiv layout.compressedVocabSize).fdiv 2) ∧
        m = BitVec.ofInt 64 value * 2 + 1 := by
  obtain ⟨-, -, -, -, -, hoffsets, -⟩ := fromConfig_eq hlayout
  rw [EngramLayout.tables, hoffsets, ← map_prod_left_eq_zip] at h
  obtain ⟨i, hi, hget⟩ := mem_iff_getElem.mp h
  simp only [getElem_zipWith, getElem_map, computeHashMultipliers] at hget
  subst hget
  have hlt : i < layout.layerIds.length := by
    simp only [length_zipWith, computeHashMultipliers, length_map] at hi
    omega
  obtain ⟨hlength, hvalues⟩ := hdraws (10007 * layout.layerIds[i]) _ layout.maxNgramSize
    (lt_of_lt_of_le one_pos (le_max_left 1 (((2 ^ 63 - 1 : Int).fdiv layout.compressedVocabSize).fdiv 2)))
  refine ⟨getElem_mem _, rfl, by rw [length_map]; exact hlength, fun m hm => ?_⟩
  obtain ⟨value, hvalue, rfl⟩ := mem_map.mp hm
  exact ⟨value, (hvalues value hvalue).1, (hvalues value hvalue).2, rfl⟩

theorem length_tables : (layout.tables integers).length = layout.layerIds.length := by
  obtain ⟨-, -, -, hids, hprimes, hoffsets, -⟩ := fromConfig_eq hlayout
  have hlength : layout.primes.length = layout.layerIds.length := by
    rw [hprimes, hids, length_collect]
  rw [EngramLayout.tables, hoffsets, ← map_prod_left_eq_zip]
  simp [computeHashMultipliers, hlength]

section

variable (hexact : ∀ p ∈ layout.primes.flatMap flatten, p < exactBelow)
include hexact

section

variable (hdraws : Draws integers)
include hdraws

theorem bareHashes_lt
    (htable : table ∈ layout.tables integers) (hlength : tokens.length = layout.maxNgramSize) :
    Forall₂ (fun (hash : Long) (p : Nat) => 0 ≤ hash.toInt ∧ hash.toInt < p)
      (bareHashes tokens table.multipliers table.primes) table.primes.flatten := by
  obtain ⟨hmem, -, hmultipliers, -⟩ := of_mem_tables hlayout hdraws htable
  have hngrams := (fromConfig_layer hlayout hmem).1
  have hproducts : (zipWith (· * ·) tokens table.multipliers).length = layout.maxNgramSize := by
    rw [length_zipWith, hlength, hmultipliers, min_self]
  rw [bareHashes]
  split
  · rename_i hnil
    rw [hnil, length_nil] at hproducts
    omega
  · rename_i rolling products hcons
    rw [hcons, length_cons] at hproducts
    refine rollingHashes_lt rolling (by omega) fun p hp => ?_
    have hall : p ∈ layout.primes.flatMap flatten := mem_flatMap.mpr ⟨_, hmem, hp⟩
    have hlt := hexact p hall
    rw [exactBelow] at hlt
    exact ⟨by have := two_le_of_isPrime ((fromConfig_primes hlayout).2 p hall); omega, by omega⟩

theorem sum_lt_of_mem_tables
    (htable : table ∈ layout.tables integers) : table.primes.flatten.sum < 2 ^ 63 := by
  obtain ⟨hmem, -⟩ := of_mem_tables hlayout hdraws htable
  obtain ⟨hnodup, hprime⟩ := fromConfig_primes hlayout
  have hall : ∀ p ∈ table.primes.flatten, p ∈ layout.primes.flatMap flatten := fun p hp =>
    mem_flatMap.mpr ⟨_, hmem, hp⟩
  exact sum_lt_of_distinct ((nodup_flatMap.mp hnodup).1 _ hmem) (fun p hp => hprime p (hall p hp))
    fun p hp => hexact p (hall p hp)

theorem add_offset
    (htable : table ∈ layout.tables integers) (hlength : tokens.length = layout.maxNgramSize) {c : Nat}
    {hash : Long} {offset : Nat}
    (hhash : (bareHashes tokens table.multipliers table.primes)[c]? = some hash)
    (hoffset : table.offsets[c]? = some offset) :
    (hash + BitVec.ofNat 64 offset).toInt = hash.toInt + offset ∧ 0 ≤ hash.toInt ∧
      InBucket table.offsets table.primes.flatten c (hash.toInt + offset).toNat := by
  have hbare := bareHashes_lt hlayout hexact hdraws htable hlength
  have hsum := sum_lt_of_mem_tables hlayout hexact hdraws htable
  obtain ⟨-, hoffsets, -⟩ := of_mem_tables hlayout hdraws htable
  obtain ⟨hc, hget⟩ := List.getElem?_eq_some_iff.mp hhash
  have hc' : c < table.primes.flatten.length := hbare.length_eq ▸ hc
  have hlt := hbare.get hc hc'
  simp only [get_eq_getElem, hget] at hlt
  have hstart : offset = (table.primes.flatten.take c).sum := by
    rw [hoffsets, getElem?_offsets hc'] at hoffset
    exact (Option.some.inj hoffset).symm
  have hend : offset + table.primes.flatten[c] ≤ table.primes.flatten.sum := by
    have hle := Slices.sum_take_le_sum table.primes.flatten (c + 1)
    rw [take_succ_eq_append_getElem hc', sum_append, sum_singleton] at hle
    omega
  refine ⟨?_, hlt.1, offset, _, hoffset, getElem?_eq_getElem hc', by omega, by omega⟩
  rw [BitVec.toInt_add, toInt_ofNat_of_fits (by omega)]
  exact Int.bmod_eq_of_le (by norm_num; omega) (by norm_num; omega)

theorem lands
    (htable : table ∈ layout.tables integers) (hlength : tokens.length = layout.maxNgramSize) :
    Lands (hashNgrams tokens table.multipliers table.primes table.offsets) table := by
  have hbare := (bareHashes_lt hlayout hexact hdraws htable hlength).length_eq
  obtain ⟨hmem, hoffsets, -⟩ := of_mem_tables hlayout hdraws htable
  have hpos := length_pos_of_ne_nil (fromConfig_layer hlayout hmem).2
  constructor
  · rw [hashNgrams, length_zipWith, hbare, hoffsets, length_cumsum, length_cons, length_dropLast]
    omega
  · intro c hash hget
    rw [hashNgrams, getElem?_zipWith_eq_some] at hget
    obtain ⟨bare, offset, hhash, hoffset, rfl⟩ := hget
    obtain ⟨hadd, hnonneg, hbucket⟩ := add_offset hlayout hexact hdraws htable hlength hhash hoffset
    rw [hadd]
    exact ⟨by omega, hbucket⟩

theorem noWrap
    (htable : table ∈ layout.tables integers) (hlength : tokens.length = layout.maxNgramSize)
    (htokens : ∀ t ∈ tokens, 0 ≤ t.toInt ∧ t.toInt < layout.compressedVocabSize) :
    NoWrap tokens table where
  products := by
    intro x hx
    obtain ⟨ht, hm⟩ := of_mem_zip hx
    obtain ⟨-, -, -, hmultipliers⟩ := of_mem_tables hlayout hdraws htable
    obtain ⟨value, hvalue, hbound, heq⟩ := hmultipliers x.2 hm
    obtain ⟨hlow, hhigh⟩ := htokens x.1 ht
    rw [heq]
    exact mul_multiplier hlow hhigh hvalue hbound
  sums := by
    intro x hx
    obtain ⟨c, hc⟩ := mem_iff_getElem?.mp hx
    obtain ⟨hhash, hoffset⟩ := getElem?_zip_eq_some.mp hc
    exact (add_offset hlayout hexact hdraws htable hlength hhash hoffset).1

end

end

end

/-! ## Batches -/

/-- A batch of compressed tokens of a vocabulary. -/
structure Batch (vocabSize : Int) where
  size : Nat
  length : Nat
  compressed : Fin size → Fin length → Long
  dead : Fin size → Fin length → Bool
  seqLens : Option (List Nat)
  in_vocab : ∀ b pos, 0 ≤ (compressed b pos).toInt ∧ (compressed b pos).toInt < vocabSize

/-- `lookback_tokens` of a batch. -/
def Batch.lookback {C : Int} (batch : Batch C) (padId : Long) (maxNgramSize : Nat) :
    Except String (Fin batch.size → Fin batch.length → List Long) :=
  lookbackTokens batch.compressed batch.dead padId maxNgramSize batch.seqLens

/-- The tokens of a batch back to the start of the document, a dead token, or the limit. -/
def Batch.visible {C : Int} (batch : Batch C) (maxNgramSize : Nat) (b : Fin batch.size)
    (pos : Fin batch.length) : List Long :=
  Engram.visible (batch.compressed b) (batch.dead b) (documentOf batch.seqLens) pos maxNgramSize 0

theorem Batch.lookback_eq {C : Int} {batch : Batch C} {padId : Long} {maxNgramSize : Nat}
    {tokens : Fin batch.size → Fin batch.length → List Long}
    (h : batch.lookback padId maxNgramSize = .ok tokens) (b : Fin batch.size) (pos : Fin batch.length) :
    tokens b pos = batch.visible maxNgramSize b pos ++
      replicate (maxNgramSize - (batch.visible maxNgramSize b pos).length) padId := by
  have hlive : ∀ p, batch.compressed b p ≠ deadId := by
    intro p heq
    have hlow := (batch.in_vocab b p).1
    rw [heq] at hlow
    exact absurd hlow (by decide)
  rw [Batch.lookback, lookbackTokens, documentIds] at h
  split at h
  · cases h
  · cases h
    exact Engram.lookback_eq hlive maxNgramSize 0

/-- The hashes of a layout stay in their tables: all primes are distinct, the buckets of a layer tile its
table, no product and no sum wraps, every hash is in the bucket of its column, and the hashes at a position
depend on the visible tokens only. -/
theorem hashes_in_table (hlayout : fromConfig config = .ok (some layout))
    (hexact : ∀ p ∈ layout.primes.flatMap flatten, p < exactBelow) (hdraws : Draws integers) :
    (layout.primes.flatMap flatten).Nodup ∧
    (layout.tables integers).length = layout.layerIds.length ∧
    (∀ table ∈ layout.tables integers, ∀ x, x < table.primes.flatten.sum ↔
      ∃! c, InBucket table.offsets table.primes.flatten c x) ∧
    ∀ (batch : Batch layout.compressedVocabSize) (padId : Long)
      (tokens : Fin batch.size → Fin batch.length → List Long),
      batch.lookback padId layout.maxNgramSize = .ok tokens → ∀ b pos,
        (∀ table ∈ layout.tables integers,
          Lands (hashNgrams (tokens b pos) table.multipliers table.primes table.offsets) table ∧
          (0 ≤ padId.toInt → padId.toInt < layout.compressedVocabSize → NoWrap (tokens b pos) table)) ∧
        ∀ (batch' : Batch layout.compressedVocabSize)
          (tokens' : Fin batch'.size → Fin batch'.length → List Long),
          batch'.lookback padId layout.maxNgramSize = .ok tokens' → ∀ b' pos',
            batch'.visible layout.maxNgramSize b' pos' = batch.visible layout.maxNgramSize b pos →
            layout.hash integers (tokens' b' pos') = layout.hash integers (tokens b pos) := by
  refine ⟨(fromConfig_primes hlayout).1, length_tables hlayout, fun table htable x => ?_, ?_⟩
  · rw [(of_mem_tables hlayout hdraws htable).2.1]
    exact existsUnique_bucket table.primes.flatten x
  · intro batch padId tokens htokens b pos
    have heq := Batch.lookback_eq htokens b pos
    have hlength : (tokens b pos).length = layout.maxNgramSize := by
      rw [Batch.lookback, lookbackTokens, documentIds] at htokens
      split at htokens
      · cases htokens
      · cases htokens
        exact length_lookback ..
    refine ⟨fun table htable => ⟨lands hlayout hexact hdraws htable hlength, fun hlow hhigh => ?_⟩, ?_⟩
    · refine noWrap hlayout hexact hdraws htable hlength fun t ht => ?_
      rw [heq] at ht
      rcases mem_append.mp ht with hvisible | hpad
      · obtain ⟨p, rfl⟩ := mem_visible hvisible
        exact batch.in_vocab b p
      · rw [eq_of_mem_replicate hpad]
        exact ⟨hlow, hhigh⟩
    · intro batch' tokens' htokens' b' pos' hsame
      rw [Batch.lookback_eq htokens' b' pos', heq, hsame]

/-- Two layers with two heads and 3-grams, hashed with the greatest multipliers. -/
theorem hashes_in_table_two :
    let integers : Int → Int → Nat → List Int := fun _ high size => replicate size (high - 1)
    ∃ layout : EngramLayout, fromConfig ⟨[0, 3], [2048, 2048], 3, 2, 8, 4, 32⟩ = .ok (some layout) ∧
      layout.primes = [[[11, 13], [17, 19]], [[23, 29], [31, 37]]] ∧
      (layout.primes.flatMap flatten).Nodup ∧
      (layout.tables integers).length = layout.layerIds.length ∧
      (∀ table ∈ layout.tables integers, ∀ x, x < table.primes.flatten.sum ↔
        ∃! c, InBucket table.offsets table.primes.flatten c x) ∧
      ∀ (batch : Batch layout.compressedVocabSize) (padId : Long)
        (tokens : Fin batch.size → Fin batch.length → List Long),
        batch.lookback padId layout.maxNgramSize = .ok tokens → ∀ b pos,
          ∀ table ∈ layout.tables integers,
            Lands (hashNgrams (tokens b pos) table.multipliers table.primes table.offsets) table := by
  intro integers
  obtain ⟨layout, hlayout, hprimes⟩ : ∃ layout : EngramLayout,
      fromConfig ⟨[0, 3], [2048, 2048], 3, 2, 8, 4, 32⟩ = .ok (some layout) ∧
        layout.primes = [[[11, 13], [17, 19]], [[23, 29], [31, 37]]] := ⟨_, rfl, by decide +kernel⟩
  have hdraws : Draws integers := by
    intro seed high size hhigh
    refine ⟨length_replicate, fun value hvalue => ?_⟩
    have := eq_of_mem_replicate hvalue
    omega
  have htable := hashes_in_table hlayout (by rw [hprimes]; decide) hdraws
  exact ⟨layout, hlayout, hprimes, htable.1, htable.2.1, htable.2.2.1,
    fun batch padId tokens h b pos table ht => ((htable.2.2.2 batch padId tokens h b pos).1 table ht).1⟩

end ArcticPlatform.Engram
