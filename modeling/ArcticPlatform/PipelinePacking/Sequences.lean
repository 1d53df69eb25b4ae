import ArcticPlatform.Library.Results
import ArcticPlatform.Library.Slices

/-!
# Packing rows for the pipeline

Packing takes the leading tokens of every row, as many as its mask has ones, and
lays them end to end; unpacking puts packed values back at the leading columns of
their rows.

Main results:

- Theorem `packRows_eq`: what packing keeps.
- Theorem `unpackSequences_flatten`: what unpacking gives back.
- Theorem `take_eq_maskTokens`: the leading tokens are the tokens of the mask
  when the ones of the mask come first.
-/

namespace ArcticPlatform.PipelinePacking

open Slices List

variable {α : Type}

/-- The token counts of the rows of a mask. -/
def maskLens (mask : List (List Bool)) : List Nat :=
  mask.map (·.count true)

/-- Row `i` is copied to its place. -/
def packRow (lens : List Nat) (rows : List (List α)) (packed : List α) (i : Nat) :
    Option (List α) := do
  let start ← (cumulative lens)[i]?
  let stop ← (cumulative lens)[i + 1]?
  let row ← rows[i]?
  assign packed start stop (row.take (stop - start))

/-- One value of `pack_sequences`; `torch.empty` is filled with an arbitrary value. -/
def packRows (empty : α) (lens : List Nat) (rows : List (List α)) : Option (List α) :=
  (range lens.length).foldlM (packRow lens rows) (replicate lens.sum empty)

/-- Row `i` of the unpacked tensor. -/
def unpackRow (padValue : α) (S : Nat) (lens : List Nat) (packed : List α) (i : Nat) :
    Option (List α) := do
  let start ← (cumulative lens)[i]?
  let stop ← (cumulative lens)[i + 1]?
  assign (replicate S padValue) 0 (stop - start) (slice packed start stop)

/-- `unpack_sequences` of one value for each packed token. -/
def unpackSequences (padValue : α) (S : Nat) (lens : List Nat) (packed : List α) :
    Option (List (List α)) := (range lens.length).mapM (unpackRow padValue S lens packed)

/-- The tokens of a row whose mask is one, in order. -/
def maskTokens (mask : List Bool) (row : List α) : List α :=
  ((row.zip mask).filter (·.2)).map (·.1)

/-- The ones of a mask row come before its zeros. -/
def LeadingOnes (mask : List Bool) : Prop :=
  mask = replicate (mask.count true) true ++ replicate (mask.count false) false

instance (mask : List Bool) : Decidable (LeadingOnes mask) :=
  inferInstanceAs (Decidable (_ = _))

/-! ## The loops -/

variable {lens : List Nat}

theorem cumulative_bounds {i n : Nat} (hn : lens[i]? = some n) :
    (cumulative lens)[i]? = some (lens.take i).sum ∧
      (cumulative lens)[i + 1]? = some ((lens.take i).sum + n) := by
  have hi : i < lens.length := (List.getElem?_eq_some_iff.mp hn).1
  rw [cumulative_getElem? (by omega), cumulative_getElem? hi, sum_take_succ hn]
  exact ⟨rfl, rfl⟩

theorem length_zipWith_take {rows : List (List α)} (hlength : rows.length = lens.length)
    (hle : ∀ (i n : Nat) (row : List α), lens[i]? = some n → rows[i]? = some row → n ≤ row.length) :
    (zipWith take lens rows).map List.length = lens := by
  apply ext_getElem?
  intro i
  by_cases hi : i < lens.length
  · have hrow : i < rows.length := by omega
    have hn := hle i lens[i] rows[i] (getElem?_eq_getElem hi) (getElem?_eq_getElem hrow)
    simp [getElem?_zipWith, getElem?_eq_getElem hi, getElem?_eq_getElem hrow, hn]
  · simp [getElem?_zipWith, getElem?_eq_none (le_of_not_gt hi)]

/-- The leading tokens of every row, end to end. -/
theorem packRows_eq (empty : α) {rows : List (List α)} (hlength : rows.length = lens.length)
    (hle : ∀ (i n : Nat) (row : List α), lens[i]? = some n → rows[i]? = some row → n ≤ row.length) :
    packRows empty lens rows = some (zipWith take lens rows).flatten := by
  have hlens := length_zipWith_take hlength hle
  have key : ∀ k ≤ lens.length, (range k).foldlM (packRow lens rows) (replicate lens.sum empty) =
        some (((zipWith take lens rows).take k).flatten ++
          replicate (lens.sum - (lens.take k).sum) empty) := by
    intro k
    induction k with
    | zero => intro _; simp
    | succ k ih =>
      intro hk
      obtain ⟨n, hn⟩ : ∃ n, lens[k]? = some n := ⟨_, getElem?_eq_getElem (by omega)⟩
      obtain ⟨row, hrow⟩ : ∃ row, rows[k]? = some row := ⟨_, getElem?_eq_getElem (by omega)⟩
      have hsum := sum_take_succ hn
      have htotal := sum_take_le_sum lens (k + 1)
      -- the rest of the buffer is this row's place and what follows
      have hrest : replicate (lens.sum - (lens.take k).sum) empty =
          replicate n empty ++ replicate (lens.sum - (lens.take (k + 1)).sum) empty := by
        rw [replicate_append_replicate, hsum]
        congr 1
        omega
      have hdone : ((zipWith take lens rows).take k).flatten.length = (lens.take k).sum := by
        rw [List.length_flatten, map_take, hlens]
      have hblock : (zipWith take lens rows)[k]? = some (row.take n) := by
        simp [getElem?_zipWith, hn, hrow]
      rw [range_succ, foldlM_append, ih (by omega), take_add_one, hblock]
      simp only [Option.bind_eq_bind, Option.bind_some, foldlM_cons, foldlM_nil, packRow,
        (cumulative_bounds hn).1, (cumulative_bounds hn).2, hrow, Nat.add_sub_cancel_left]
      rw [hrest, ← append_assoc, assign_append hdone (by rw [length_replicate])]
      · simp
      · simpa using hle k n row hn hrow
  have hall : (zipWith take lens rows).length ≤ lens.length := by
    rw [← length_map (f := List.length), hlens]
  rw [packRows, key lens.length (le_refl _), take_of_length_le hall]
  simp

/-- Blocks are put back at the leading columns of their rows. -/
theorem unpackSequences_flatten (padValue : α) {S : Nat} {blocks : List (List α)}
    (hle : ∀ block ∈ blocks, block.length ≤ S) :
    unpackSequences padValue S (blocks.map List.length) blocks.flatten =
      some (blocks.map fun block => block ++ replicate (S - block.length) padValue) := by
  rw [unpackSequences, length_map]
  apply Results.mapM_range_getElem? (by simp)
  intro i hi
  have hn : (blocks.map List.length)[i]? = some blocks[i].length := by simp [hi]
  have hslice := slice_flatten (getElem?_eq_getElem hi)
  rw [sum_take_succ hn] at hslice
  have hfit := hle blocks[i] (getElem_mem hi)
  have hpad : replicate S padValue = [] ++ replicate blocks[i].length padValue ++
      replicate (S - blocks[i].length) padValue := by
    rw [nil_append, replicate_append_replicate]
    congr 1
    omega
  have hassign := assign_append (A := []) (B := replicate blocks[i].length padValue)
    (C := replicate (S - blocks[i].length) padValue) (v := blocks[i]) (a := 0)
    (b := blocks[i].length) rfl (by simp) (by simp)
  simp only [unpackRow, (cumulative_bounds hn).1, (cumulative_bounds hn).2,
    Option.bind_eq_bind, Option.bind_some, hslice, Nat.add_sub_cancel_left]
  rw [hpad, hassign, nil_append]
  simp [hi]

/-! ## Masks -/

@[simp] theorem maskTokens_nil : maskTokens ([] : List Bool) ([] : List α) = [] := rfl

theorem maskTokens_cons (m : Bool) (mask : List Bool) (x : α) (row : List α) :
    maskTokens (m :: mask) (x :: row) =
      if m then x :: maskTokens mask row else maskTokens mask row := by
  cases m <;> rfl

theorem maskTokens_zeros (n : Nat) (row : List α) : maskTokens (replicate n false) row = [] := by
  induction n generalizing row with
  | zero => simp [maskTokens]
  | succ n ih =>
    cases row with
    | nil => simp [maskTokens]
    | cons x row => simpa [replicate_succ, maskTokens_cons] using ih row

theorem maskTokens_leading {n k : Nat} {row : List α} (hlength : n ≤ row.length) :
    maskTokens (replicate n true ++ replicate k false) row = row.take n := by
  induction n generalizing row with
  | zero => simpa using maskTokens_zeros k row
  | succ n ih =>
    cases row with
    | nil => simp at hlength
    | cons x row =>
      simp only [replicate_succ, cons_append, maskTokens_cons, if_true,
        take_succ_cons, ih (Nat.le_of_succ_le_succ hlength)]

/-- Where the ones come first, the leading tokens are the tokens of the mask. -/
theorem take_eq_maskTokens {mask : List Bool} (hmask : LeadingOnes mask) {row : List α}
    (hlength : row.length = mask.length) :
    row.take (mask.count true) = maskTokens mask row := by
  have hcount : mask.count true ≤ row.length := by
    rw [hlength]
    exact List.count_le_length
  rw [LeadingOnes] at hmask
  conv_rhs => rw [hmask, maskTokens_leading hcount]

theorem maskTokens_self (mask : List Bool) :
    maskTokens mask mask = replicate (mask.count true) true := by
  induction mask with
  | nil => rfl
  | cons m mask ih => cases m <;> simp [maskTokens_cons, replicate_succ, ih]

theorem leadingOnes_of_take {mask : List Bool}
    (h : mask.take (mask.count true) = maskTokens mask mask) : LeadingOnes mask := by
  rw [maskTokens_self] at h
  have hsplit := take_append_drop (mask.count true) mask
  -- the ones are used up by the leading part
  have hrest : (mask.drop (mask.count true)).count true = 0 := by
    have hcount := congrArg (count true) hsplit
    rw [count_append, h, count_replicate_self] at hcount
    omega
  have hfalse : mask.drop (mask.count true) =
      replicate (mask.drop (mask.count true)).length false := by
    rw [eq_replicate_iff]
    refine ⟨rfl, ?_⟩
    intro b hb
    cases b with
    | false => rfl
    | true => exact absurd (count_pos_iff.mpr hb) (by omega)
  have hlength : (mask.drop (mask.count true)).length = mask.count false := by
    have hcount := congrArg (count false) hsplit
    rw [count_append, h, hfalse, count_replicate_self, count_replicate] at hcount
    simpa using hcount
  rw [LeadingOnes, ← hlength, ← hfalse, ← h, hsplit]

end ArcticPlatform.PipelinePacking
