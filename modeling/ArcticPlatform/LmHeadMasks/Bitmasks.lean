import ArcticPlatform.LmHeadMasks.Decoding

/-!
# Action masks: bitmasks of a grammar

An embedding of the action masks of the inference server.  A grammar gives, for a
position, the tokens that it allows as the bits of 32-bit words.  The smaller one of the
allowed and the denied tokens becomes the set of an entry, and the entries become a
payload.  A row that allows every token becomes no entry, and one that allows none is
refused.

`_mask_set_from_words` is cached by its arguments, which its result depends on only.
The loop of `action_masks_from_entries` is the one of the model layer behind a test
of the position.

Main results:

- Theorem `entryFromWords_eq`: the entry of a row.
- Theorem `bitmask_round_trip`: what the payload of the rows says.
-/

namespace ArcticPlatform.LmHeadMasks

open Dicts Results Slices Tensors List

/-! ## Rows of words -/

/-- What the functions for bitmasks raise. -/
inductive BitmaskError where
  | noAllowedTokenIds
  | wordIndex
  | masks (e : Error)
  deriving DecidableEq

/-- `np.unpackbits(words.view(np.uint8), bitorder="little")`. -/
def unpackBits (words : List (BitVec 32)) : List Bool :=
  words.flatMap fun word => (range 32).map fun i => word.getLsbD i

/-- `np.flatnonzero`. -/
def flatNonzero (selected : List Bool) : List Nat :=
  (range selected.length).filter fun t => selected.getD t false

/-- `_token_ids_from_words`. -/
def tokenIdsFromWords (words : List (BitVec 32)) (vocabSize : Nat) (wantAllowed : Bool) : List Nat :=
  let bitValues := (unpackBits words).take vocabSize
  flatNonzero (if wantAllowed then bitValues else bitValues.map not)

/-- `_mask_set_from_words`. -/
def maskSetFromWords (words : List (BitVec 32)) (vocabSize : Nat) :
    Except BitmaskError (Bool × List Nat) :=
  let allowedCount := ((unpackBits words).take vocabSize).count true
  if allowedCount ≤ 0 then .error .noAllowedTokenIds
  else
    let deniedCount := vocabSize - allowedCount
    if deniedCount = 0 then .ok (false, [])
    else
      let useAllow := decide (allowedCount ≤ deniedCount)
      .ok (useAllow, tokenIdsFromWords words vocabSize useAllow)

/-- `words.astype(np.uint32)`, and `normalized_words[-1] &= (1 << valid_bits) - 1`. -/
def normalizedWords (words : List Int) (vocabSize : Nat) : Except BitmaskError (List (BitVec 32)) :=
  let normalized := words.map (BitVec.ofInt 32)
  let validBits := vocabSize % 32
  if validBits ≠ 0 then
    match normalized.getLast? with
    | none => .error .wordIndex
    | some last => .ok (normalized.dropLast ++ [last &&& BitVec.ofNat 32 (2 ^ validBits - 1)])
  else .ok normalized

/-- `action_mask_entry_from_bitmask_words`. -/
def actionMaskEntryFromBitmaskWords (words : List Int) (position : Int) (vocabSize : Nat) :
    Except BitmaskError (Option ActionMaskEntry) := do
  let normalized ← normalizedWords words vocabSize
  let (modeAllow, tokenIds) ← maskSetFromWords normalized vocabSize
  if tokenIds = [] then .ok none
  else .ok (some ⟨position, modeAllow, tokenIds.map fun t : Nat => (t : Int)⟩)

/-- `action_masks_from_entries` of the server. -/
def serverMasksFromEntries (seqLen vocabSize : Int) (entries : List ActionMaskEntry) :
    Except Error (Option ActionMasks) :=
  let s := (byPosition entries).foldl
    (fun s e => if seqLen ≤ e.position then s else s.add e) Interning.init
  if s.positions = [] then .ok none
  else normalizeActionMasks (some { s with seqLen, vocabSize })

/-- The entry of a position, if it has a mask. -/
def entryOfRow (vocabSize : Nat) (row : Int × Option (List Int)) :
    Except BitmaskError (Option ActionMaskEntry) :=
  match row.2 with
  | none => .ok none
  | some words => actionMaskEntryFromBitmaskWords words row.1 vocabSize

/-- The payload of positions with their words. -/
def encodeRows (seqLen : Int) (vocabSize : Nat) (rows : List (Int × Option (List Int))) :
    Except BitmaskError (Option ActionMasks) := do
  let entries ← rows.mapM (entryOfRow vocabSize)
  match serverMasksFromEntries seqLen vocabSize entries.reduceOption with
  | .ok masks => .ok masks
  | .error e => .error (.masks e)

/-! ## Bits -/

/-- The bit of a token. -/
def bitSet (words : List Int) (t : Nat) : Bool :=
  (BitVec.ofInt 32 (words.getD (t / 32) 0)).getLsbD (t % 32)

/-- The words have a bit for every token. -/
def Covers (words : List Int) (vocabSize : Nat) : Prop := vocabSize ≤ 32 * words.length

theorem getElem?_unpackBits (words : List (BitVec 32)) (t : Nat) :
    (unpackBits words)[t]? = words[t / 32]?.map fun word => word.getLsbD (t % 32) := by
  induction words generalizing t with
  | nil => simp [unpackBits]
  | cons word words ih =>
    have hlen : ((range 32).map fun i => word.getLsbD i).length = 32 := by simp
    rw [unpackBits, flatMap_cons]
    by_cases ht : t < 32
    · have hdiv : t / 32 = 0 := Nat.div_eq_of_lt ht
      have hmod : t % 32 = t := Nat.mod_eq_of_lt ht
      rw [getElem?_append_left (by omega), getElem?_map, getElem?_range ht, hdiv, hmod]
      rfl
    · have hdiv : t / 32 = (t - 32) / 32 + 1 := by omega
      have hmod : t % 32 = (t - 32) % 32 := by omega
      rw [getElem?_append_right (by omega), hlen, hdiv, hmod, getElem?_cons_succ, ← ih]
      rfl

variable {words : List Int} {normalized : List (BitVec 32)} {vocabSize : Nat}

theorem take_unpackBits
    (h : ∀ t < vocabSize, ∃ word, normalized[t / 32]? = some word ∧
      word.getLsbD (t % 32) = bitSet words t) :
    (unpackBits normalized).take vocabSize = (range vocabSize).map (bitSet words) := by
  apply ext_getElem?
  intro t
  by_cases ht : t < vocabSize
  · obtain ⟨word, hword, hbit⟩ := h t ht
    rw [getElem?_take_of_lt ht, getElem?_unpackBits, hword, getElem?_map,
      getElem?_range ht, Option.map_some, Option.map_some, hbit]
  · rw [getElem?_take_eq_none (by omega), getElem?_eq_none]
    rw [length_map, length_range]
    omega

variable {t : Nat}

theorem getElem?_words (ht : t / 32 < words.length) :
    ∃ word, (words.map (BitVec.ofInt 32))[t / 32]? = some word ∧
      word.getLsbD (t % 32) = bitSet words t := by
  refine ⟨BitVec.ofInt 32 (words.getD (t / 32) 0), ?_, rfl⟩
  rw [getElem?_map, getElem?_eq_getElem ht, getD_eq_getElem _ _ ht]
  rfl

theorem normalizedWords_eq (h : Covers words vocabSize) :
    ∃ normalized, normalizedWords words vocabSize = .ok normalized ∧
      (unpackBits normalized).take vocabSize = (range vocabSize).map (bitSet words) := by
  rw [Covers] at h
  have hlen : (words.map (BitVec.ofInt 32)).length = words.length := length_map _
  unfold normalizedWords
  dsimp only
  split_ifs with hbits
  · cases hlast : (words.map (BitVec.ofInt 32)).getLast? with
    | none =>
      have hnil := getLast?_eq_none_iff.mp hlast
      rw [hnil, length_nil] at hlen
      omega
    | some last =>
      refine ⟨_, rfl, take_unpackBits fun t ht => ?_⟩
      obtain ⟨front, hfront⟩ := getLast?_eq_some_iff.mp hlast
      obtain ⟨word, hword, hbit⟩ := getElem?_words (show t / 32 < words.length by omega)
      rw [hfront, length_append, length_singleton] at hlen
      rw [hfront] at hword ⊢
      rw [dropLast_concat]
      by_cases hlt : t / 32 < front.length
      · rw [getElem?_append_left hlt] at hword ⊢
        exact ⟨word, hword, hbit⟩
      · -- the last word: the bits of the tokens are among the valid ones
        have heq : t / 32 = front.length := by omega
        have hvalid : t % 32 < vocabSize % 32 := by omega
        rw [heq, getElem?_concat_length] at hword ⊢
        refine ⟨_, rfl, ?_⟩
        rw [BitVec.getLsbD_and, BitVec.getLsbD_ofNat, Nat.testBit_two_pow_sub_one,
          Option.some.inj hword, hbit]
        simp [hvalid, Nat.mod_lt t (show 0 < 32 by decide)]
  · exact ⟨_, rfl, take_unpackBits fun t ht => getElem?_words (by omega)⟩

/-! ## Entries of rows -/

theorem mem_flatNonzero {selected : List Bool} :
    t ∈ flatNonzero selected ↔ t < selected.length ∧ selected.getD t false = true := by
  rw [flatNonzero, mem_filter, mem_range]

theorem mem_tokenIdsFromWords
    (h : (unpackBits normalized).take vocabSize = (range vocabSize).map (bitSet words))
    (wantAllowed : Bool) :
    t ∈ tokenIdsFromWords normalized vocabSize wantAllowed ↔
      t < vocabSize ∧ bitSet words t = wantAllowed := by
  unfold tokenIdsFromWords
  dsimp only
  rw [mem_flatNonzero, h]
  cases wantAllowed with
  | true =>
    simp only [if_true, length_map, length_range]
    apply and_congr_right
    intro ht
    rw [getD_eq_getElem _ _ (by simpa using ht), getElem_map, getElem_range]
  | false =>
    simp only [Bool.false_eq_true, if_false, length_map, length_range]
    apply and_congr_right
    intro ht
    rw [getD_eq_getElem _ _ (by simpa using ht), getElem_map, getElem_map,
      getElem_range, Bool.not_eq_true']

theorem count_eq (words : List Int) (vocabSize : Nat) :
    (((range vocabSize).map (bitSet words)).count true ≤ 0 ↔
        ∀ t < vocabSize, bitSet words t = false) ∧
      (vocabSize - ((range vocabSize).map (bitSet words)).count true = 0 ↔
        ∀ t < vocabSize, bitSet words t = true) := by
  have hlen : ((range vocabSize).map (bitSet words)).length = vocabSize := by simp
  constructor
  · rw [Nat.le_zero, count_eq_zero]
    simp
  · have hle := List.count_le_length (a := true) (l := (range vocabSize).map (bitSet words))
    have hall : ((range vocabSize).map (bitSet words)).count true =
        ((range vocabSize).map (bitSet words)).length ↔ ∀ t < vocabSize, bitSet words t = true := by
      rw [count_eq_length]
      constructor
      · intro h t ht
        exact (h _ (mem_map_of_mem (mem_range.mpr ht))).symm
      · intro h b hb
        obtain ⟨t, ht, rfl⟩ := mem_map.mp hb
        exact (h t (mem_range.mp ht)).symm
    rw [← hall]
    omega

theorem maskSetFromWords_eq
    (h : (unpackBits normalized).take vocabSize = (range vocabSize).map (bitSet words)) :
    maskSetFromWords normalized vocabSize =
      if ∀ t < vocabSize, bitSet words t = false then .error .noAllowedTokenIds
      else if ∀ t < vocabSize, bitSet words t = true then .ok (false, [])
      else .ok (decide (((range vocabSize).map (bitSet words)).count true ≤
          vocabSize - ((range vocabSize).map (bitSet words)).count true),
        tokenIdsFromWords normalized vocabSize
          (decide (((range vocabSize).map (bitSet words)).count true ≤
            vocabSize - ((range vocabSize).map (bitSet words)).count true))) := by
  obtain ⟨hnone, hall⟩ := count_eq words vocabSize
  unfold maskSetFromWords
  simp only [h, hnone, hall]

/-- The entry of a row: an error if no token is allowed, none if all are. -/
theorem entryFromWords_eq (h : Covers words vocabSize) (position : Int) :
    (actionMaskEntryFromBitmaskWords words position vocabSize = .error .noAllowedTokenIds ∧
      ∀ t < vocabSize, bitSet words t = false) ∨
    ((∃ t < vocabSize, bitSet words t = true) ∧ ∃ entry,
      actionMaskEntryFromBitmaskWords words position vocabSize = .ok entry ∧
      (entry = none ↔ ∀ t < vocabSize, bitSet words t = true) ∧
      ∀ e ∈ entry, e.position = position ∧ e.ids ≠ [] ∧ (∀ t ∈ e.ids, 0 ≤ t ∧ t < vocabSize) ∧
        ∀ t < vocabSize, ((t : Int) ∈ e.ids ↔ bitSet words t = e.modeAllow)) := by
  obtain ⟨normalized, hnormalized, hbits⟩ := normalizedWords_eq h
  rw [actionMaskEntryFromBitmaskWords, hnormalized, bind_ok, maskSetFromWords_eq hbits]
  split_ifs with hnone hall
  · exact .inl ⟨rfl, hnone⟩
  · right
    push Not at hnone
    obtain ⟨t, ht, hbit⟩ := hnone
    refine ⟨⟨t, ht, by simpa using hbit⟩, none, rfl, ?_, by simp⟩
    exact iff_of_true rfl hall
  · right
    generalize decide (((range vocabSize).map (bitSet words)).count true ≤
      vocabSize - ((range vocabSize).map (bitSet words)).count true) = useAllow
    have hmem := fun t => mem_tokenIdsFromWords hbits useAllow (t := t)
    push Not at hnone hall
    obtain ⟨t, ht, hset⟩ := hnone
    obtain ⟨t', ht', hclear⟩ := hall
    have hset : bitSet words t = true := by simpa using hset
    have hclear : bitSet words t' = false := by simpa using hclear
    have hne : tokenIdsFromWords normalized vocabSize useAllow ≠ [] := by
      cases useAllow with
      | true => exact ne_nil_of_mem ((hmem t).mpr ⟨ht, hset⟩)
      | false => exact ne_nil_of_mem ((hmem t').mpr ⟨ht', hclear⟩)
    refine ⟨⟨t, ht, hset⟩, some ⟨position, useAllow,
      (tokenIdsFromWords normalized vocabSize useAllow).map fun t : Nat => (t : Int)⟩,
      if_neg hne, ?_, ?_⟩
    · simp only [reduceCtorEq, false_iff]
      intro hall
      rw [hall t' ht'] at hclear
      exact absurd hclear (by decide)
    · intro e he
      obtain rfl := Option.some.inj he
      refine ⟨rfl, by simpa using hne, ?_, ?_⟩
      · intro token htoken
        obtain ⟨k, hk, rfl⟩ := mem_map.mp htoken
        have := ((hmem k).mp hk).1
        omega
      · intro token htoken
        simp only [mem_map, Int.natCast_inj, exists_eq_right, hmem]
        exact ⟨fun hboth => hboth.2, fun hbit => ⟨htoken, hbit⟩⟩

/-! ## Payloads of rows -/

theorem serverMasksFromEntries_eq {seqLen vocabSize : Int} {entries : List ActionMaskEntry}
    (h : ∀ e ∈ entries, e.position < seqLen) :
    serverMasksFromEntries seqLen vocabSize entries =
      actionMasksFromEntries seqLen vocabSize entries := by
  have hfold : ∀ (l : List ActionMaskEntry) (s : Interning), (∀ e ∈ l, e.position < seqLen) →
      l.foldl (fun s e => if seqLen ≤ e.position then s else s.add e) s =
        l.foldl Interning.add s := by
    intro l
    induction l with
    | nil => exact fun s _ => rfl
    | cons e l ih =>
      intro s hl
      rw [foldl_cons, foldl_cons, if_neg (not_le.mpr (hl e mem_cons_self))]
      exact ih _ fun e' he' => hl e' (mem_cons_of_mem _ he')
  unfold serverMasksFromEntries actionMasksFromEntries
  rw [hfold _ _ fun e he => h e ((byPosition_perm entries).mem_iff.mp he)]

/-- A token is allowed at a position. -/
def allowsToken (es : List ActionMaskEntry) (position token : Int) : Prop :=
  ∀ e ∈ es, e.position = position → (token ∈ e.ids ↔ e.modeAllow = true)

/-- A row allows a token: it has no mask, or the bit is set. -/
def rowAllows (row : Option (List Int)) (t : Nat) : Prop := ∀ words ∈ row, bitSet words t = true

theorem mem_reduceOption_of_mapM {ι α ε : Type} {f : ι → Except ε (Option α)} {l : List ι}
    {ys : List (Option α)} (h : l.mapM f = .ok ys) {y : α} :
    y ∈ ys.reduceOption ↔ ∃ x ∈ l, f x = .ok (some y) := by
  have hall := mapM_eq_ok.mp h
  rw [reduceOption_mem_iff]
  clear h
  induction hall with
  | nil => simp
  | cons hx _ ih => simp [ih, hx, eq_comm]

theorem sublist_of_mapM {ι α κ ε : Type} {f : ι → Except ε (Option α)} {key : ι → κ} {of : α → κ}
    {l : List ι} {ys : List (Option α)} (hkey : ∀ x ∈ l, ∀ y, f x = .ok (some y) → of y = key x)
    (h : l.mapM f = .ok ys) : (ys.reduceOption.map of).Sublist (l.map key) := by
  have hall := mapM_eq_ok.mp h
  clear h
  induction hall with
  | nil => exact Sublist.slnil
  | @cons x y l ys hx _ ih =>
    have ih := ih fun x' hx' => hkey x' (mem_cons_of_mem _ hx')
    cases y with
    | none =>
      rw [reduceOption_cons_of_none, map_cons]
      exact ih.cons _
    | some y =>
      rw [reduceOption_cons_of_some, map_cons, map_cons, hkey x mem_cons_self y hx]
      exact ih.cons_cons _

section Rows

variable {vocabSize : Nat} {seqLen : Int} {rows : List (Int × Option (List Int))}

variable {row : Int × Option (List Int)}

section

variable (hwords : ∀ words ∈ row.2, Covers words vocabSize)
include hwords

theorem entryOfRow_some {e : ActionMaskEntry} (h : entryOfRow vocabSize row = .ok (some e)) :
    e.position = row.1 ∧ e.ids ≠ [] ∧ (∀ t ∈ e.ids, 0 ≤ t ∧ t < vocabSize) ∧
      (¬∀ t < vocabSize, rowAllows row.2 t) ∧
      ∀ t < vocabSize, ((t : Int) ∈ e.ids ↔ e.modeAllow = true) ↔ rowAllows row.2 t := by
  obtain ⟨position, words⟩ := row
  cases words with
  | none => exact absurd h (by simp [entryOfRow])
  | some words =>
    have h : actionMaskEntryFromBitmaskWords words position vocabSize = .ok (some e) := h
    rcases entryFromWords_eq (hwords words rfl) position with ⟨herr, -⟩ | ⟨-, entry, hok, hnone, hsome⟩
    · rw [herr] at h
      exact absurd h (by simp)
    · obtain rfl : entry = some e := Except.ok.inj (hok.symm.trans h)
      obtain ⟨hposition, hids, htokens, hbits⟩ := hsome e rfl
      refine ⟨hposition, hids, htokens, fun hall => ?_, fun t ht => ?_⟩
      · have : some e = none := hnone.mpr fun t ht => hall t ht words rfl
        exact absurd this (by simp)
      · rw [hbits t ht]
        have hrow : rowAllows (some words) t ↔ bitSet words t = true :=
          ⟨fun hall => hall words rfl, fun hbit _ heq => Option.some.inj heq ▸ hbit⟩
        rw [hrow]
        cases e.modeAllow <;> cases bitSet words t <;> decide

theorem entryOfRow_none
    (h : entryOfRow vocabSize row = .ok none) : ∀ t < vocabSize, rowAllows row.2 t := by
  obtain ⟨position, words⟩ := row
  intro t ht words' hwords'
  obtain rfl : words = some words' := hwords'
  have h : actionMaskEntryFromBitmaskWords words' position vocabSize = .ok none := h
  rcases entryFromWords_eq (hwords words' rfl) position with ⟨herr, -⟩ | ⟨-, entry, hok, hnone, -⟩
  · rw [herr] at h
    exact absurd h (by simp)
  · obtain rfl : entry = none := Except.ok.inj (hok.symm.trans h)
    exact hnone.mp rfl t ht

theorem entryOfRow_isOk_iff :
    (∃ entry, entryOfRow vocabSize row = .ok entry) ↔
      ∀ words ∈ row.2, ∃ t < vocabSize, bitSet words t = true := by
  obtain ⟨position, words⟩ := row
  cases words with
  | none => exact ⟨fun _ words h => absurd h (by simp), fun _ => ⟨none, rfl⟩⟩
  | some words =>
    have hrow : entryOfRow vocabSize (position, some words) =
        actionMaskEntryFromBitmaskWords words position vocabSize := rfl
    rw [hrow]
    rcases entryFromWords_eq (hwords words rfl) position with ⟨herr, hclear⟩ | ⟨hset, entry, hok, -⟩
    · rw [herr]
      refine ⟨fun h => absurd h (by simp), fun h => ?_⟩
      obtain ⟨t, ht, hbit⟩ := h words rfl
      rw [hclear t ht] at hbit
      exact absurd hbit (by decide)
    · exact ⟨fun _ _ heq => Option.some.inj heq ▸ hset, fun _ => ⟨entry, hok⟩⟩

end

/-- Entries say which tokens each row allows, and constrain no other position. -/
structure SaysRows (vocabSize : Nat) (rows : List (Int × Option (List Int)))
    (out : List ActionMaskEntry) : Prop where
  allows : ∀ row ∈ rows, ∀ t < vocabSize, allowsToken out row.1 t ↔ rowAllows row.2 t
  unconstrained : ∀ row ∈ rows, (∀ t < vocabSize, rowAllows row.2 t) → ∀ e ∈ out, e.position ≠ row.1
  positions : ∀ e ∈ out, e.position ∈ rows.map Prod.fst

/-- The payload of the entries of the rows. -/
theorem serverMasks_of_rows (hwords : ∀ row ∈ rows, ∀ words ∈ row.2, Covers words vocabSize)
    (hnodup : (rows.map Prod.fst).Nodup) (hseqLen : ∀ row ∈ rows, row.1 < seqLen)
    {entries : List (Option ActionMaskEntry)} (h : rows.mapM (entryOfRow vocabSize) = .ok entries) :
    ∃ r out, serverMasksFromEntries seqLen vocabSize entries.reduceOption = .ok r ∧
      normalizeActionMasks r = .ok r ∧ actionMaskEntries r = .ok out ∧
      SaysRows vocabSize rows out := by
  have hmem := fun e => mem_reduceOption_of_mapM h (y := e)
  -- an entry comes from the row at its position
  have hof : ∀ e ∈ entries.reduceOption, ∃ row ∈ rows, entryOfRow vocabSize row = .ok (some e) ∧
      e.position = row.1 := by
    intro e he
    obtain ⟨row, hrow, hentry⟩ := (hmem e).mp he
    exact ⟨row, hrow, hentry, (entryOfRow_some (hwords row hrow) hentry).1⟩
  have hpositions : (entries.reduceOption.map (·.position)).Nodup :=
    hnodup.sublist (sublist_of_mapM (fun row hrow e hentry =>
      (entryOfRow_some (hwords row hrow) hentry).1) h)
  have hlt : ∀ e ∈ entries.reduceOption, e.position < seqLen := by
    intro e he
    obtain ⟨row, hrow, -, hposition⟩ := hof e he
    rw [hposition]
    exact hseqLen row hrow
  have htokens : ∀ e ∈ entries.reduceOption, ∀ t ∈ e.ids, 0 ≤ t ∧ t < (vocabSize : Int) := by
    intro e he
    obtain ⟨row, hrow, hentry, -⟩ := hof e he
    exact (entryOfRow_some (hwords row hrow) hentry).2.2.1
  obtain ⟨r, out, hr, hout, hperm, hsorted⟩ := entries_fromEntries hpositions hlt htokens
  have houtMem : ∀ e, e ∈ out ↔ ∃ e' ∈ entries.reduceOption, sortIds e' = e := by
    intro e
    rw [hperm.mem_iff, mem_map]
    constructor
    · rintro ⟨e', he', rfl⟩
      exact ⟨e', mem_of_mem_filter he', rfl⟩
    · rintro ⟨e', he', rfl⟩
      obtain ⟨row, hrow, hentry, -⟩ := hof e' he'
      have hids := (entryOfRow_some (hwords row hrow) hentry).2.1
      exact ⟨e', mem_filter.mpr ⟨he', by simpa using hids⟩, rfl⟩
  refine ⟨r, out, by rw [serverMasksFromEntries_eq hlt, hr], ?_, hout, ?_⟩
  · exact normalize_fromEntries hr
  · -- an entry at the position of a row is the row's own
    have hown : ∀ row ∈ rows, ∀ e ∈ out, e.position = row.1 →
        ∃ e', entryOfRow vocabSize row = .ok (some e') ∧ sortIds e' = e := by
      intro row hrow e he hposition
      obtain ⟨e', he', rfl⟩ := (houtMem e).mp he
      obtain ⟨row', hrow', hentry, hposition'⟩ := hof e' he'
      have hsame : row' = row :=
        inj_on_of_nodup_map hnodup hrow' hrow (hposition'.symm.trans hposition)
      exact ⟨e', hsame ▸ hentry, rfl⟩
    have hids : ∀ (e : ActionMaskEntry) (t : Int), t ∈ (sortIds e).ids ↔ t ∈ e.ids :=
      fun e t => mem_insertionSort _
    refine ⟨fun row hrow t ht => ?_, fun row hrow hall e he hposition => ?_, fun e he => ?_⟩
    · obtain ⟨entry, hentry⟩ : ∃ entry, entryOfRow vocabSize row = .ok entry := by
        have hall := mapM_eq_ok.mp h
        obtain ⟨i, hi, rfl⟩ := getElem_of_mem hrow
        exact ⟨_, hall.get hi (hall.length_eq ▸ hi)⟩
      cases entry with
      | none =>
        refine iff_of_true (fun e he hposition => ?_) (entryOfRow_none (hwords row hrow) hentry t ht)
        obtain ⟨e', hentry', -⟩ := hown row hrow e he hposition
        exact absurd (Except.ok.inj (hentry.symm.trans hentry')) (by simp)
      | some e =>
        obtain ⟨hposition, -, -, -, hallows⟩ := entryOfRow_some (hwords row hrow) hentry
        have he : sortIds e ∈ out := (houtMem _).mpr ⟨e, (hmem e).mpr ⟨row, hrow, hentry⟩, rfl⟩
        rw [← hallows t ht]
        constructor
        · intro htoken
          rw [← hids]
          exact htoken (sortIds e) he hposition
        · intro htoken e₁ he₁ hposition₁
          obtain ⟨e', hentry', rfl⟩ := hown row hrow e₁ he₁ hposition₁
          obtain rfl : e = e' := Option.some.inj (Except.ok.inj (hentry.symm.trans hentry'))
          rw [hids]
          exact htoken
    · obtain ⟨e', hentry, -⟩ := hown row hrow e he hposition
      exact (entryOfRow_some (hwords row hrow) hentry).2.2.2.1 hall
    · obtain ⟨e', he', rfl⟩ := (houtMem e).mp he
      obtain ⟨row, hrow, -, hposition⟩ := hof e' he'
      exact mem_map.mpr ⟨row, hrow, hposition.symm⟩

/-- The rows become a payload exactly if each of them allows a token, and the payload says which
tokens they allow. -/
theorem bitmask_round_trip (hwords : ∀ row ∈ rows, ∀ words ∈ row.2, Covers words vocabSize)
    (hnodup : (rows.map Prod.fst).Nodup) (hseqLen : ∀ row ∈ rows, row.1 < seqLen) :
    ((∃ r, encodeRows seqLen vocabSize rows = .ok r) ↔
        ∀ row ∈ rows, ∀ words ∈ row.2, ∃ t < vocabSize, bitSet words t = true) ∧
      ∀ r, encodeRows seqLen vocabSize rows = .ok r → normalizeActionMasks r = .ok r ∧
        ∃ out, actionMaskEntries r = .ok out ∧ SaysRows vocabSize rows out := by
  have hencode : ∀ r, encodeRows seqLen vocabSize rows = .ok r → ∃ entries,
      rows.mapM (entryOfRow vocabSize) = .ok entries ∧
      serverMasksFromEntries seqLen vocabSize entries.reduceOption = .ok r := by
    intro r hr
    obtain ⟨entries, hentries, hr⟩ := bind_eq_ok.mp hr
    refine ⟨entries, hentries, ?_⟩
    cases hmasks : serverMasksFromEntries seqLen vocabSize entries.reduceOption with
    | ok masks =>
      rw [hmasks] at hr
      exact congrArg _ (Except.ok.inj hr)
    | error e =>
      rw [hmasks] at hr
      exact absurd hr (by simp)
  refine ⟨⟨?_, fun hallowed => ?_⟩, fun r hr => ?_⟩
  · rintro ⟨r, hr⟩ row hrow
    obtain ⟨entries, hentries, -⟩ := hencode r hr
    rw [← entryOfRow_isOk_iff (hwords row hrow)]
    have hall := mapM_eq_ok.mp hentries
    obtain ⟨i, hi, rfl⟩ := getElem_of_mem hrow
    exact ⟨_, hall.get hi (hall.length_eq ▸ hi)⟩
  · obtain ⟨entries, hentries⟩ := mapM_isOk fun row hrow =>
      (entryOfRow_isOk_iff (hwords row hrow)).mpr (hallowed row hrow)
    obtain ⟨r, -, hr, -⟩ := serverMasks_of_rows hwords hnodup hseqLen hentries
    exact ⟨r, by rw [encodeRows, hentries, bind_ok, hr]⟩
  · obtain ⟨entries, hentries, hr⟩ := hencode r hr
    obtain ⟨r', out, hr', hnormal, hout, hsays⟩ :=
      serverMasks_of_rows hwords hnodup hseqLen hentries
    obtain rfl : r' = r := Except.ok.inj (hr'.symm.trans hr)
    exact ⟨hnormal, out, hout, hsays⟩

end Rows

/-- A row with the sign bit, one without a mask and one with all bits of 34 tokens. -/
def threeRows : List (Int × Option (List Int)) :=
  [(2, some [-2147483647, 1]), (3, none), (4, some [-1, 3])]

theorem bitmask_round_trip_three :
    ((∃ r, encodeRows 5 34 threeRows = .ok r) ↔
        ∀ row ∈ threeRows, ∀ words ∈ row.2, ∃ t < 34, bitSet words t = true) ∧
      ∀ r, encodeRows 5 34 threeRows = .ok r → normalizeActionMasks r = .ok r ∧
        ∃ out, actionMaskEntries r = .ok out ∧ SaysRows 34 threeRows out := by
  refine bitmask_round_trip ?_ (by decide) (by decide)
  intro row hrow words hwords
  simp only [threeRows, mem_cons, not_mem_nil, or_false] at hrow
  rcases hrow with rfl | rfl | rfl
  · obtain rfl := Option.some.inj hwords
    exact (by decide : 34 ≤ 32 * 2)
  · exact absurd hwords (by simp)
  · obtain rfl := Option.some.inj hwords
    exact (by decide : 34 ≤ 32 * 2)

/-- A row that allows no token is refused. -/
theorem encode_no_token :
    encodeRows 1 5 [(0, some [0])] = .error .noAllowedTokenIds ∧ ∀ t < 5, bitSet [0] t = false :=
  ⟨by decide, by decide⟩

end ArcticPlatform.LmHeadMasks
