import ArcticPlatform.Library.Tensors

/-!
# Tensors

Tensors with a shape, kept as their values in row-major order.  A tensor with at
least two axes is read as a table of rows of tokens, where a token is the block of
values behind the first two axes.

Main results:

- Theorem `flatten_chunks`: the values of a tensor are its blocks, end to end.
- Theorem `indexSelect_items`: the tokens of selected rows.
- Theorem `indexCopy_items`: what is left of a tensor after copying into it.
-/

namespace Tensors

open Results Slices List

variable {α : Type}

/-! ## Blocks -/

/-- The first `n` blocks of `k` values. -/
def chunks (k n : Nat) (data : List α) : List (List α) :=
  (range n).map fun i => (data.drop (i * k)).take k

theorem length_chunks (k n : Nat) (data : List α) : (chunks k n data).length = n := by
  simp [chunks]

variable {k n : Nat} {data : List α}

theorem getElem?_chunks {i : Nat} (hi : i < n) :
    (chunks k n data)[i]? = some ((data.drop (i * k)).take k) := by
  simp [chunks, hi]

theorem chunks_succ (k n : Nat) (data : List α) :
    chunks k (n + 1) data = data.take k :: chunks k n (data.drop k) := by
  simp only [chunks, range_succ_eq_map, map_cons, map_map, zero_mul,
    drop_zero, Function.comp_def, drop_drop]
  congr 2
  ext i
  rw [Nat.succ_mul, add_comm]

theorem length_of_mem_chunks (h : data.length = n * k) {x : List α} (hx : x ∈ chunks k n data) :
    x.length = k := by
  obtain ⟨i, hi, rfl⟩ := mem_map.mp hx
  have hi : i + 1 ≤ n := mem_range.mp hi
  have := Nat.mul_le_mul_right k hi
  rw [Nat.succ_mul] at this
  rw [length_take, length_drop, h]
  omega

/-- The blocks, end to end. -/
theorem flatten_chunks (h : data.length = n * k) : (chunks k n data).flatten = data := by
  induction n generalizing data with
  | zero =>
    rw [zero_mul, length_eq_zero_iff] at h
    rw [h]
    rfl
  | succ n ih =>
    rw [chunks_succ, flatten_cons, ih, take_append_drop]
    rw [length_drop, h, Nat.succ_mul]
    omega

theorem chunks_flatten {k : Nat} {items : List (List α)} (h : ∀ x ∈ items, x.length = k) :
    chunks k items.length items.flatten = items := by
  induction items with
  | nil => rfl
  | cons x items ih =>
    have hx : x.length = k := h x mem_cons_self
    rw [length_cons, chunks_succ, flatten_cons, take_left' hx, drop_left' hx,
      ih fun y hy => h y (mem_cons_of_mem _ hy)]

theorem length_flatten_of {k : Nat} {items : List (List α)} (h : ∀ x ∈ items, x.length = k) :
    items.flatten.length = items.length * k := by
  rw [List.length_flatten, map_congr_left h, map_const', sum_replicate, smul_eq_mul]

theorem chunks_add (k m n : Nat) (data : List α) :
    chunks k (m + n) data = chunks k m (data.take (m * k)) ++ chunks k n (data.drop (m * k)) := by
  simp only [chunks, range_add, map_append, map_map, Function.comp_def, drop_drop]
  congr 1
  · apply map_congr_left
    intro i hi
    have hi : i + 1 ≤ m := mem_range.mp hi
    have := Nat.mul_le_mul_right k hi
    rw [Nat.succ_mul] at this
    rw [drop_take, take_take]
    congr 1
    omega
  · apply map_congr_left
    intro i _
    rw [add_mul]

theorem chunks_append {k m n : Nat} {xs ys : List α} (hxs : xs.length = m * k) :
    chunks k (m + n) (xs ++ ys) = chunks k m xs ++ chunks k n ys := by
  rw [chunks_add, take_left' hxs, drop_left' hxs]

theorem chunks_replicate (k n : Nat) (v : α) :
    chunks k n (replicate (n * k) v) = replicate n (replicate k v) := by
  have hlength : ∀ x ∈ replicate n (replicate k v), x.length = k := by
    intro x hx
    rw [eq_of_mem_replicate hx, length_replicate]
  have h := chunks_flatten hlength
  rw [length_replicate, flatten_replicate_replicate] at h
  exact h

theorem chunks_one (data : List α) : chunks 1 data.length data = data.map ([·]) := by
  induction data with
  | nil => rfl
  | cons x data ih => rw [length_cons, chunks_succ, drop_succ_cons, drop_zero, ih]; rfl

theorem chunks_mul (k m n : Nat) (data : List α) :
    chunks k (n * m) data = (chunks (m * k) n data).flatMap (chunks k m) := by
  induction n generalizing data with
  | zero => simp [chunks]
  | succ n ih =>
    rw [Nat.succ_mul, add_comm, chunks_add, ih, chunks_succ, flatMap_cons]

theorem getElem?_flatMap_block {ι β : Type} {f : ι → List β} {s : Nat} {l : List ι}
    (hf : ∀ x ∈ l, (f x).length = s) {i j : Nat} (hj : j < s) :
    (l.flatMap f)[i * s + j]? = l[i]?.bind fun x => (f x)[j]? := by
  induction l generalizing i with
  | nil => simp
  | cons x l ih =>
    have hx := hf x mem_cons_self
    rw [flatMap_cons]
    cases i with
    | zero =>
      rw [zero_mul, zero_add, getElem?_append_left (by omega)]
      rfl
    | succ i =>
      rw [Nat.succ_mul, getElem?_append_right (by omega), getElem?_cons_succ,
        ← ih fun y hy => hf y (mem_cons_of_mem _ hy)]
      congr 1
      omega

/-! ## Tensors -/

/-- A tensor: its shape and its values in row-major order. -/
@[ext]
structure Tensor (α : Type) where
  shape : List Nat
  data : List α
  size : data.length = shape.prod
  deriving DecidableEq

namespace Tensor

/-- `t.ndim`. -/
def ndim (t : Tensor α) : Nat := t.shape.length

/-- The blocks along the first axis. -/
def items (t : Tensor α) : List (List α) := chunks t.shape.tail.prod (t.shape.headD 1) t.data

/-- The blocks behind the first two axes, row by row. -/
def tokens (t : Tensor α) : List (List α) :=
  chunks (t.shape.drop 2).prod (t.shape.take 2).prod t.data

variable (t : Tensor α)

theorem size_items : t.data.length = t.shape.headD 1 * t.shape.tail.prod := by
  rw [t.size]
  cases t.shape with
  | nil => rfl
  | cons n rest => simp

theorem size_tokens : t.data.length = (t.shape.take 2).prod * (t.shape.drop 2).prod := by
  rw [t.size, ← prod_append, take_append_drop]

/-- The tensor with blocks along the first axis. -/
def ofItems (rest : List Nat) (items : List (List α)) (h : ∀ x ∈ items, x.length = rest.prod) :
    Tensor α where
  shape := items.length :: rest
  data := items.flatten
  size := by rw [length_flatten_of h, prod_cons]

theorem length_of_mem_items {x : List α} (hx : x ∈ t.items) : x.length = t.shape.tail.prod :=
  length_of_mem_chunks t.size_items hx

theorem flatten_tokens : t.tokens.flatten = t.data := flatten_chunks t.size_tokens

/-! ## Operations on the first axis -/

/-- `t.index_select(0, index)`. -/
def indexSelect (t : Tensor α) (index : List Int) : Except TensorError (Tensor α) :=
  match h : Tensors.indexSelect t.items index with
  | .error e => .error e
  | .ok items => .ok (ofItems t.shape.tail items (by
      intro x hx
      obtain ⟨i, hi, rfl⟩ := getElem_of_mem hx
      have hget := indexSelect_eq_ok.mp h
      have := (hget.get (hget.length_eq ▸ hi) hi).2
      exact t.length_of_mem_items (mem_of_getElem? this)))

/-- `t[:n]`. -/
def takeItems (t : Tensor α) (n : Nat) : Tensor α :=
  ofItems t.shape.tail (t.items.take n) fun _ hx => t.length_of_mem_items (mem_of_mem_take hx)

/-- `t[a:b]`, for bounds that are not negative. -/
def sliceItems (t : Tensor α) (a b : Nat) : Tensor α :=
  ofItems t.shape.tail (slice t.items a b) fun _ hx =>
    t.length_of_mem_items (mem_of_mem_drop (mem_of_mem_take hx))

/-- `t.unsqueeze(0)`. -/
def unsqueeze (t : Tensor α) : Tensor α where
  shape := 1 :: t.shape
  data := t.data
  size := by rw [t.size, prod_cons, one_mul]

/-- `t.squeeze(0)`: an axis of length one is removed. -/
def squeeze (t : Tensor α) : Tensor α :=
  match h : t.shape with
  | 1 :: rest => ⟨rest, t.data, by rw [t.size, h, prod_cons, one_mul]⟩
  | _ => t

/-- A tensor with one axis. -/
def ofList (xs : List α) : Tensor α where
  shape := [xs.length]
  data := xs
  size := by simp

/-- `torch.full(shape, v)`. -/
def full (shape : List Nat) (v : α) : Tensor α where
  shape := shape
  data := replicate shape.prod v
  size := length_replicate

/-- `t.reshape(shape)`. -/
def reshape (t : Tensor α) (shape : List Nat) : Except TensorError (Tensor α) :=
  if h : t.data.length = shape.prod then .ok ⟨shape, t.data, h⟩ else .error .shapeMismatch

/-- Replace items by their indices, one after the other. -/
def copyItems (items : List (List α)) (values : List (Int × List α)) : List (List α) :=
  values.foldl (fun items p => items.set p.1.toNat p.2) items

theorem length_copyItems (items : List (List α)) (values : List (Int × List α)) :
    (copyItems items values).length = items.length := by
  induction values generalizing items with
  | nil => rfl
  | cons p values ih => exact (ih _).trans (length_set ..)

theorem length_of_mem_copyItems {items : List (List α)} {values : List (Int × List α)} {k : Nat}
    (hitems : ∀ x ∈ items, x.length = k) (hvalues : ∀ p ∈ values, p.2.length = k) :
    ∀ x ∈ copyItems items values, x.length = k := by
  induction values generalizing items with
  | nil => exact hitems
  | cons p values ih =>
    apply ih _ fun q hq => hvalues q (mem_cons_of_mem _ hq)
    intro x hx
    rcases mem_or_eq_of_mem_set hx with hx | rfl
    · exact hitems x hx
    · exact hvalues p mem_cons_self

/-- `t.index_copy_(0, index, source)`. -/
def indexCopy (t : Tensor α) (index : List Int) (source : Tensor α) :
    Except TensorError (Tensor α) :=
  if h : source.shape.tail = t.shape.tail ∧ source.items.length = index.length then
    if index.all fun i => 0 ≤ i ∧ i.toNat < t.items.length then
      .ok (ofItems t.shape.tail (copyItems t.items (index.zip source.items))
        (length_of_mem_copyItems (fun _ hx => t.length_of_mem_items hx) fun p hp => by
          rw [← h.1]
          exact source.length_of_mem_items (of_mem_zip hp).2))
    else .error .indexOutOfRange
  else .error .shapeMismatch

/-! ## Operations on the second axis -/

theorem length_flatten_map_items {t : Tensor α} {n k : Nat} {f : List α → List α}
    (hn : t.shape.headD 1 = n) (hf : ∀ x ∈ t.items, (f x).length = k) :
    (t.items.map f).flatten.length = n * k := by
  rw [length_flatten_of (k := k), length_map, items, length_chunks, hn]
  intro y hy
  obtain ⟨x, hx, rfl⟩ := mem_map.mp hy
  exact hf x hx

/-- `F.pad` of the second axis with `n` tokens behind it. -/
def padTokens (t : Tensor α) (n : Nat) (v : α) : Tensor α :=
  match h : t.shape with
  | a :: b :: rest =>
    { shape := a :: (b + n) :: rest
      data := (t.items.map (· ++ replicate (n * rest.prod) v)).flatten
      size := by
        rw [length_flatten_map_items (n := a) (k := (b + n) * rest.prod) (by rw [h]; rfl)]
        · simp
        · intro x hx
          rw [length_append, t.length_of_mem_items hx, h]
          simp [add_mul] }
  | _ => t

theorem length_sliceTokens (start stop : Nat) {a b : Nat} {rest : List Nat}
    (h : t.shape = a :: b :: rest) :
    (t.items.map fun row => (slice (chunks rest.prod b row) start stop).flatten).flatten.length =
      (a :: (min stop b - start) :: rest).prod := by
  rw [length_flatten_map_items (n := a) (k := (min stop b - start) * rest.prod) (by rw [h]; rfl)]
  · simp
  · intro x hx
    rw [length_flatten_of (k := rest.prod)]
    · congr 1
      rw [slice, length_take, length_drop, length_chunks]
      omega
    · intro y hy
      have hy := mem_of_mem_drop (mem_of_mem_take hy)
      apply length_of_mem_chunks _ hy
      rw [t.length_of_mem_items hx, h]
      simp

/-- `t[:, a:b]`, for bounds that are not negative. -/
def sliceTokens (t : Tensor α) (start stop : Nat) : Tensor α :=
  match h : t.shape with
  | a :: b :: rest =>
    { shape := a :: (min stop b - start) :: rest
      data := (t.items.map fun row => (slice (chunks rest.prod b row) start stop).flatten).flatten
      size := t.length_sliceTokens start stop h }
  | _ => t

/-! ## Items and tokens of the results -/

section Results

variable {t : Tensor α} {a b n : Nat} {rest : List Nat}

theorem length_items (ht : t.shape = n :: rest) : t.items.length = n := by
  rw [items, length_chunks, ht]
  rfl

variable {items : List (List α)}

@[simp] theorem items_ofItems (h : ∀ x ∈ items, x.length = rest.prod) :
    (ofItems rest items h).items = items := chunks_flatten h

@[simp] theorem shape_ofItems (h : ∀ x ∈ items, x.length = rest.prod) :
    (ofItems rest items h).shape = items.length :: rest := rfl

theorem tokens_eq_flatMap (ht : t.shape = a :: b :: rest) :
    t.tokens = t.items.flatMap (chunks rest.prod b) := by
  have hitems : t.items = chunks (b * rest.prod) a t.data := by
    rw [items, ht]
    simp
  rw [tokens, hitems, ht, ← chunks_mul]
  simp

theorem getElem?_tokens (ht : t.shape = a :: b :: rest) {i j : Nat} (hj : j < b) :
    t.tokens[i * b + j]? = t.items[i]?.bind fun row => (chunks rest.prod b row)[j]? := by
  rw [tokens_eq_flatMap ht, getElem?_flatMap_block (fun x _ => length_chunks _ _ _) hj]

theorem tokens_eq_items (ht : t.shape = 1 :: n :: rest) : t.tokens = t.squeeze.items := by
  obtain ⟨shape, data, size⟩ := t
  cases ht
  simp [tokens, items, squeeze]

theorem shape_squeeze (ht : t.shape = 1 :: rest) : t.squeeze.shape = rest := by
  obtain ⟨shape, data, size⟩ := t
  cases ht
  rfl

@[simp] theorem shape_ofList (xs : List α) : (ofList xs).shape = [xs.length] := rfl

@[simp] theorem shape_unsqueeze (t : Tensor α) : t.unsqueeze.shape = 1 :: t.shape := rfl

theorem tokens_unsqueeze (ht : t.shape = n :: rest) : t.unsqueeze.tokens = t.items := by
  obtain ⟨shape, data, size⟩ := t
  cases ht
  simp [tokens, items, unsqueeze]

/-- A selection of items. -/
theorem indexSelect_items {index : List Int} (ht : t.shape = n :: rest)
    (h : ∀ i ∈ index, 0 ≤ i ∧ i.toNat < n) :
    ∃ t', t.indexSelect index = .ok t' ∧ t'.shape = index.length :: rest ∧
      t'.items = index.map fun i => t.items.getD i.toNat [] := by
  have hselect : Tensors.indexSelect t.items (index.map id) =
      .ok (index.map fun i => t.items.getD i.toNat []) :=
    indexSelect_ok [] (by simpa [length_items ht] using h)
  rw [map_id] at hselect
  unfold indexSelect
  split
  · rename_i e he
    rw [hselect] at he
    cases he
  · rename_i items hitems
    rw [hselect] at hitems
    cases hitems
    refine ⟨_, rfl, ?_, items_ofItems _⟩
    simp [ht]

/-- Copying items over those of a tensor. -/
theorem indexCopy_items {index : List Int} {source : Tensor α} (ht : t.shape = n :: rest)
    (hsource : source.shape = index.length :: rest) (h : ∀ i ∈ index, 0 ≤ i ∧ i.toNat < n) :
    ∃ t', t.indexCopy index source = .ok t' ∧ t'.shape = n :: rest ∧
      t'.items = copyItems t.items (index.zip source.items) := by
  have hshape : source.shape.tail = t.shape.tail ∧ source.items.length = index.length :=
    ⟨by rw [ht, hsource]; rfl, length_items hsource⟩
  have hall : index.all fun i => 0 ≤ i ∧ i.toNat < t.items.length := by
    rw [length_items ht, all_eq_true]
    simpa using h
  refine ⟨_, by rw [indexCopy, dif_pos hshape, if_pos hall], ?_, items_ofItems _⟩
  simp [length_copyItems, length_items ht, ht]

/-- What stands at an index after copying, when the values are a function of the indices. -/
theorem getElem?_copyItems {values : List (Int × List α)} {g : Nat → List α}
    (hg : ∀ p ∈ values, p.2 = g p.1.toNat) (j : Nat) :
    (copyItems items values)[j]? =
      if j ∈ values.map (·.1.toNat) ∧ j < items.length then some (g j) else items[j]? := by
  induction values generalizing items with
  | nil => simp [copyItems]
  | cons p values ih =>
    have hp := hg p mem_cons_self
    have ih := @ih (items.set p.1.toNat p.2) fun q hq => hg q (mem_cons_of_mem _ hq)
    rw [length_set] at ih
    have hcons : copyItems items (p :: values) = copyItems (items.set p.1.toNat p.2) values := rfl
    rw [hcons, ih]
    simp only [map_cons, mem_cons]
    by_cases hj : j ∈ values.map (·.1.toNat) ∧ j < items.length
    · rw [if_pos hj, if_pos ⟨.inr hj.1, hj.2⟩]
    · rw [if_neg hj, getElem?_set]
      by_cases heq : p.1.toNat = j
      · subst heq
        by_cases hlt : p.1.toNat < items.length
        · simp [hlt, hp]
        · simp [hlt]
      · have hne : ¬ ((j = p.1.toNat ∨ j ∈ values.map (·.1.toNat)) ∧ j < items.length) := by
          rintro ⟨hj' | hj', hlt⟩
          · exact heq hj'.symm
          · exact hj ⟨hj', hlt⟩
        rw [if_neg heq, if_neg hne]

theorem reshape_tokens (ht : t.shape = a :: b :: rest) :
    ∃ t', t.reshape (a * b :: rest) = .ok t' ∧ t'.shape = a * b :: rest ∧ t'.items = t.tokens := by
  have hsize : t.data.length = (a * b :: rest).prod := by
    rw [t.size, ht]
    simp [mul_assoc]
  refine ⟨⟨a * b :: rest, t.data, hsize⟩, dif_pos hsize, rfl, ?_⟩
  rw [tokens, ht]
  simp [items]

theorem reshape_items (ht : t.shape = a * b :: rest) :
    ∃ t', t.reshape (a :: b :: rest) = .ok t' ∧ t'.shape = a :: b :: rest ∧ t'.tokens = t.items := by
  have hsize : t.data.length = (a :: b :: rest).prod := by
    rw [t.size, ht]
    simp [mul_assoc]
  refine ⟨⟨a :: b :: rest, t.data, hsize⟩, dif_pos hsize, rfl, ?_⟩
  rw [items, ht]
  simp [tokens]

theorem shape_padTokens (ht : t.shape = a :: b :: rest) (n : Nat) (v : α) :
    (t.padTokens n v).shape = a :: (b + n) :: rest := by
  obtain ⟨shape, data, size⟩ := t
  cases ht
  rfl

theorem tokens_padTokens (ht : t.shape = 1 :: b :: rest) (n : Nat) (v : α) :
    (t.padTokens n v).tokens = t.tokens ++ replicate n (replicate rest.prod v) := by
  obtain ⟨shape, data, size⟩ := t
  cases ht
  have hsize : data.length = b * rest.prod := by simpa using size
  have hitems : chunks (b * rest.prod) 1 data = [data] := by
    simp [chunks, ← hsize]
  simp only [tokens, padTokens, items, tail_cons, prod_cons, headD_cons, hitems,
    map_cons, map_nil, flatten_cons, flatten_nil, append_nil,
    drop_succ_cons, drop_zero, take_succ_cons, take_zero, prod_nil, one_mul, mul_one]
  rw [chunks_append hsize, chunks_replicate]

theorem items_full (n : Nat) (rest : List Nat) (v : α) :
    (full (n :: rest) v).items = replicate n (replicate rest.prod v) := by
  simp only [full, items, headD_cons, tail_cons, prod_cons]
  exact chunks_replicate _ _ _

end Results

/-! ## Putting tensors together -/

theorem ext_items {t u : Tensor α} {m n : Nat} {rest : List Nat} (ht : t.shape = m :: rest)
    (hu : u.shape = n :: rest) (h : t.items = u.items) : t = u := by
  have hm : m = n := by rw [← length_items ht, h, length_items hu]
  ext1
  · rw [ht, hu, hm]
  · have hflatten : ∀ v : Tensor α, v.items.flatten = v.data := fun v => flatten_chunks v.size_items
    rw [← hflatten t, h, hflatten u]

/-- Two tensors end to end along the first axis. -/
def catItemsTwo (t u : Tensor α) : Except TensorError (Tensor α) :=
  if h : u.shape.tail = t.shape.tail then
    .ok (ofItems t.shape.tail (t.items ++ u.items) (by
      intro x hx
      rcases mem_append.mp hx with hx | hx
      · exact t.length_of_mem_items hx
      · rw [← h]
        exact u.length_of_mem_items hx))
  else .error .shapeMismatch

/-- `torch.cat(ts, dim=0)`, for tensors that have that axis. -/
def catItems : List (Tensor α) → Except TensorError (Tensor α)
  | [] => .error .shapeMismatch
  | t :: ts => ts.foldlM catItemsTwo t

/-- Two tensors end to end along the second axis. -/
def catTokensTwo (t u : Tensor α) : Except TensorError (Tensor α) :=
  match ht : t.shape, hu : u.shape with
  | a :: b :: rest, a' :: b' :: rest' =>
    if h : a' = a ∧ rest' = rest then
      .ok
        { shape := a :: (b + b') :: rest
          data := (zipWith (· ++ ·) t.items u.items).flatten
          size := by
            obtain ⟨rfl, rfl⟩ := h
            rw [length_flatten_of (k := (b + b') * rest'.prod)]
            · rw [length_zipWith, length_items ht, length_items hu, min_self]
              simp
            · intro x hx
              obtain ⟨i, hi, rfl⟩ := getElem_of_mem hx
              rw [getElem_zipWith, length_append,
                t.length_of_mem_items (getElem_mem _), u.length_of_mem_items (getElem_mem _),
                ht, hu]
              simp [add_mul] }
    else .error .shapeMismatch
  | _, _ => .error .shapeMismatch

/-- `torch.cat(ts, dim=1)`. -/
def catTokens : List (Tensor α) → Except TensorError (Tensor α)
  | [] => .error .shapeMismatch
  | t :: ts => ts.foldlM catTokensTwo t

section Cat

variable {t : Tensor α} {a b n : Nat} {rest : List Nat}

/-- The items of tensors end to end. -/
theorem catItems_eq {ts : List (Tensor α)} (hne : ts ≠ [])
    (hts : ∀ t ∈ ts, ∃ n, t.shape = n :: rest) :
    ∃ t', catItems ts = .ok t' ∧ (∃ n, t'.shape = n :: rest) ∧ t'.items = ts.flatMap items := by
  cases ts with
  | nil => exact absurd rfl hne
  | cons t ts =>
    have hfold : ∀ (ts : List (Tensor α)) (t : Tensor α), (∃ n, t.shape = n :: rest) →
        (∀ u ∈ ts, ∃ n, u.shape = n :: rest) →
        ∃ t', ts.foldlM catItemsTwo t = .ok t' ∧ (∃ n, t'.shape = n :: rest) ∧
          t'.items = t.items ++ ts.flatMap items := by
      intro ts
      induction ts with
      | nil => exact fun t ht _ => ⟨t, rfl, ht, by simp⟩
      | cons u ts ih =>
        rintro t ⟨m, ht⟩ hts
        obtain ⟨n, hu⟩ := hts u mem_cons_self
        have htail : u.shape.tail = t.shape.tail := by rw [ht, hu]; rfl
        obtain ⟨t', ht', hshape, hitems⟩ := ih (ofItems t.shape.tail (t.items ++ u.items) (by
          intro x hx
          rcases mem_append.mp hx with hx | hx
          · exact t.length_of_mem_items hx
          · rw [← htail]
            exact u.length_of_mem_items hx)) ⟨_, by rw [shape_ofItems, ht]; rfl⟩
          fun v hv => hts v (mem_cons_of_mem _ hv)
        refine ⟨t', ?_, hshape, ?_⟩
        · rw [foldlM_cons, catItemsTwo, dif_pos htail, bind_ok, ht']
        · rw [hitems, items_ofItems, flatMap_cons, append_assoc]
    obtain ⟨t', ht', hshape, hitems⟩ := hfold ts t (hts t mem_cons_self)
      fun u hu => hts u (mem_cons_of_mem _ hu)
    exact ⟨t', ht', hshape, hitems⟩

section

variable (ht : t.shape = a :: b :: rest)
include ht

theorem shape_sliceTokens (start stop : Nat) :
    (t.sliceTokens start stop).shape = a :: (min stop b - start) :: rest := by
  obtain ⟨shape, data, size⟩ := t
  cases ht
  rfl

/-- The rows of a slice of the second axis. -/
theorem items_sliceTokens (start stop : Nat) :
    (t.sliceTokens start stop).items =
      t.items.map fun row => (slice (chunks rest.prod b row) start stop).flatten := by
  obtain ⟨shape, data, size⟩ := t
  cases ht
  have hchunks : ∀ {k : Nat} {items : List (List α)}, items.length = a →
      (∀ x ∈ items, x.length = k) → chunks k a items.flatten = items := by
    intro k items hlength h
    rw [← hlength]
    exact chunks_flatten h
  simp only [items, sliceTokens, tail_cons, headD_cons, prod_cons]
  apply hchunks
  · simp [length_chunks]
  · intro x hx
    obtain ⟨row, hrow, rfl⟩ := mem_map.mp hx
    have hrow : row.length = b * rest.prod := by
      apply length_of_mem_chunks _ hrow
      simpa using size
    rw [length_flatten_of (k := rest.prod)]
    · congr 1
      rw [slice, length_take, length_drop, length_chunks]
      omega
    · intro y hy
      exact length_of_mem_chunks hrow (mem_of_mem_drop (mem_of_mem_take hy))

theorem sliceTokens_all : t.sliceTokens 0 b = t := by
  apply ext_items (shape_sliceTokens ht 0 b) (by rw [ht, min_self, tsub_zero])
  rw [items_sliceTokens ht]
  conv_rhs => rw [← map_id t.items]
  apply map_congr_left
  intro row hrow
  have hsize : row.length = b * rest.prod := by
    rw [t.length_of_mem_items hrow, ht]
    simp
  rw [slice, drop_zero, tsub_zero, take_of_length_le (by rw [length_chunks]), flatten_chunks hsize]
  rfl

theorem catTokensTwo_eq {u : Tensor α} {b' : Nat} (hu : u.shape = a :: b' :: rest) :
    ∃ v, catTokensTwo t u = .ok v ∧ v.shape = a :: (b + b') :: rest ∧
      v.items = zipWith (· ++ ·) t.items u.items := by
  have hlength : (zipWith (· ++ ·) t.items u.items).length = a := by
    rw [length_zipWith, length_items ht, length_items hu, min_self]
  have hsize : ∀ x ∈ zipWith (· ++ ·) t.items u.items, x.length = (b + b') * rest.prod := by
    intro x hx
    obtain ⟨i, hi, rfl⟩ := getElem_of_mem hx
    rw [getElem_zipWith, length_append, t.length_of_mem_items (getElem_mem _),
      u.length_of_mem_items (getElem_mem _), ht, hu]
    simp [add_mul]
  have hitems := chunks_flatten hsize
  rw [hlength] at hitems
  obtain ⟨shape, data, size⟩ := t
  obtain ⟨shape', data', size'⟩ := u
  cases ht
  cases hu
  exact ⟨_, dif_pos ⟨rfl, rfl⟩, rfl, by simpa [items] using hitems⟩

end

theorem slice_append_slice {β : Type} (l : List β) {x y z : Nat} (hxy : x ≤ y) (hyz : y ≤ z) :
    slice l x y ++ slice l y z = slice l x z := by
  have hz : z - x = (y - x) + (z - y) := by omega
  have hy : x + (y - x) = y := by omega
  rw [slice, slice, slice, hz, take_add, drop_drop, hy]

theorem catTokensTwo_slices (ht : t.shape = a :: b :: rest) {y z : Nat} (hyz : y ≤ z) (hz : z ≤ b) :
    catTokensTwo (t.sliceTokens 0 y) (t.sliceTokens y z) = .ok (t.sliceTokens 0 z) := by
  obtain ⟨v, hv, hshape, hitems⟩ :=
    catTokensTwo_eq (shape_sliceTokens ht 0 y) (shape_sliceTokens ht y z)
  rw [hv]
  congr 1
  have hwidth : min y b - 0 + (min z b - y) = min z b - 0 := by omega
  rw [hwidth] at hshape
  apply ext_items hshape (shape_sliceTokens ht 0 z)
  rw [hitems, items_sliceTokens ht, items_sliceTokens ht, items_sliceTokens ht, zipWith_map,
    zipWith_self]
  apply map_congr_left
  intro row _
  rw [← flatten_append, slice_append_slice _ zero_le hyz]

/-- Consecutive slices of the second axis, end to end. -/
theorem catTokens_windows {w : Nat} (ht : t.shape = a :: n * w :: rest) (hn : 0 < n) :
    catTokens ((range n).map fun k => t.sliceTokens (k * w) ((k + 1) * w)) = .ok t := by
  have hfold : ∀ m < n, catTokens
      ((range (m + 1)).map fun k => t.sliceTokens (k * w) ((k + 1) * w)) =
      .ok (t.sliceTokens 0 ((m + 1) * w)) := by
    intro m
    induction m with
    | zero =>
      intro _
      simp [catTokens]
      rfl
    | succ m ih =>
      intro hm
      have hstop : (m + 1 + 1) * w ≤ n * w := Nat.mul_le_mul_right w hm
      have hstep : (m + 1) * w ≤ (m + 1 + 1) * w := Nat.mul_le_mul_right w (Nat.le_succ _)
      have hsucc : ∀ (l : List (Tensor α)) (u : Tensor α), l ≠ [] →
          catTokens (l ++ [u]) = catTokens l >>= fun v => catTokensTwo v u := by
        intro l u hl
        cases l with
        | nil => exact absurd rfl hl
        | cons v l =>
          rw [cons_append, catTokens, foldlM_append, catTokens]
          congr 1
          funext v'
          rw [foldlM_cons]
          cases catTokensTwo v' u <;> rfl
      rw [range_succ, map_append, map_cons, map_nil, hsucc _ _ (by simp),
        ih (by omega), bind_ok, catTokensTwo_slices ht hstep hstop]
  obtain ⟨m, rfl⟩ := Nat.exists_eq_add_of_lt hn
  rw [zero_add, hfold m (by omega)]
  congr 1
  apply sliceTokens_all
  rw [ht, zero_add]

theorem items_squeeze_sliceTokens (ht : t.shape = 1 :: b :: rest) (start stop : Nat) :
    (t.sliceTokens start stop).squeeze.items = slice t.squeeze.items start stop := by
  have hshape := shape_sliceTokens ht start stop
  rw [← tokens_eq_items hshape, ← tokens_eq_items ht, tokens_eq_flatMap hshape,
    items_sliceTokens ht, tokens_eq_flatMap ht]
  obtain ⟨row, hrow⟩ : ∃ row, t.items = [row] := List.length_eq_one_iff.mp (length_items ht)
  have hsize : row.length = b * rest.prod := by
    rw [t.length_of_mem_items (x := row) (by rw [hrow]; simp), ht]
    simp
  have hblocks : ∀ x ∈ slice (chunks rest.prod b row) start stop, x.length = rest.prod := by
    intro x hx
    exact length_of_mem_chunks hsize (mem_of_mem_drop (mem_of_mem_take hx))
  have hcount : (slice (chunks rest.prod b row) start stop).length = min stop b - start := by
    rw [slice, length_take, length_drop, length_chunks]
    omega
  have hchunks := chunks_flatten hblocks
  rw [hcount] at hchunks
  rw [hrow]
  simpa using hchunks

end Cat

end Tensor

end Tensors
