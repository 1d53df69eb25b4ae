import ArcticPlatform.Ulysses.Heads

/-!
# The exchanges around the attention

What the ranks of a sequence-parallel group get in the first exchange are the tokens
of all of them, in order, for the heads of one shard each; what they get in the
second one are the outputs of all shards for their own tokens.

Main results:

- Theorem `packQkv_eq`: the buffer that a rank sends.
- Theorem `unpackOutput_eq`: the outputs that a rank gets back.
- Theorem `ulyssesAttention_eq`: the attention of a sequence-parallel group.
-/

namespace ArcticPlatform.Ulysses

open Meshes Tensors TensorViews List Function

/-! ## Lists -/

section Lists

variable {α β γ δ ε : Type}

theorem zipWith3_map (F : β → γ → δ → ε) (l : List α) (f : α → β) (g : α → γ) (h : α → δ) :
    zipWith3 F (l.map f) (l.map g) (l.map h) = l.map fun x => F (f x) (g x) (h x) := by
  induction l with
  | nil => rfl
  | cons x l ih => simp [zipWith3, ih]

theorem zipWith_map_range (F : β → γ → δ) (n : Nat) (f : Nat → β) (g : Nat → γ) :
    zipWith F ((range n).map f) ((range n).map g) = (range n).map fun i => F (f i) (g i) := by
  rw [zipWith_map_left, zipWith_map_right, zipWith_self]

theorem flatMap_replicate (c f : Nat) (g : Nat → β) :
    ((range c).flatMap fun i => replicate f (g i)) = (range (c * f)).map fun s => g (s / f) := by
  rw [← rows_flatten, map_flatMap]
  congr 1
  funext i
  rw [row, map_map]
  symm
  rw [eq_replicate_iff]
  refine ⟨by simp, ?_⟩
  intro b hb
  obtain ⟨j, hj, rfl⟩ := mem_map.mp hb
  rw [comp_apply, ((digits_iff (mem_range.mp hj)).mp rfl).1]

theorem map_range_mul (a b : Nat) (g : Nat → β) :
    (range (a * b)).map g =
      ((range a).map fun i => (range b).map fun j => g (i * b + j)).flatten := by
  rw [← rows_flatten, map_flatMap, flatMap_def]
  simp only [row, map_map]
  rfl

end Lists

/-! ## The buffers -/

section Buffers

variable {α X : Type} {sz : Sizes}

theorem Sizes.Valid.share_cases (hz : sz.Valid) :
    (sz.isKvReplicated = true ∧ sz.sp / sz.replicationFactor = sz.kvShare ∧
      sz.kvShare * sz.replicationFactor = sz.sp) ∨
    (sz.isKvReplicated = false ∧ sz.kvShare = sz.sp * sz.numKvHeads) := by
  have hpos : 0 < sz.kvShare := lt_of_lt_of_le one_pos (le_max_left 1 _)
  by_cases hlt : sz.kvShare < sz.sp
  · have hdvd : sz.kvShare ∣ sz.sp := by
      rcases hz.share with h | h
      · exact h
      · exact absurd (Nat.le_of_dvd hpos h) (by omega)
    refine .inl ⟨by simpa [Sizes.isKvReplicated] using hlt, ?_, ?_⟩
    · exact Nat.div_div_self hdvd (by omega)
    · exact Nat.mul_div_cancel' hdvd
  · have hrep : sz.isKvReplicated = false := by simpa [Sizes.isKvReplicated] using hlt
    have hdvd : sz.sp ∣ sz.kvShare := by
      rcases hz.share with h | h
      · have := Nat.le_of_dvd hz.sp_pos h
        have heq : sz.kvShare = sz.sp := by omega
        exact heq ▸ dvd_refl _
      · exact h
    refine .inr ⟨hrep, ?_⟩
    simp [Sizes.numKvHeads, hrep, Nat.mul_div_cancel' hdvd]

variable {t : Nat}

theorem view_queries (hz : sz.Valid) (tokens : List X) {f : X → List α}
    (hf : ∀ x, (f x).length = sz.heads * sz.headSize) (ht : t < sz.tp) :
    view (tokens.map fun x => selectHeads sz.headSize (queryRow sz sz.tp t) (f x)) sz.sp
        (sz.numHeads * sz.headSize) = tokens.map fun x => (range sz.sp).map fun s =>
        selectHeads sz.headSize (queryRow sz (sz.tp * sz.sp) (t * sz.sp + s)) (f x) := by
  have hdvd : sz.tp ∣ sz.heads := (dvd_mul_right _ _).trans hz.heads_dvd
  have hshard : sz.heads / sz.tp = sz.sp * sz.numHeads := by
    obtain ⟨nh, hnh⟩ := hz.heads_dvd
    rw [Sizes.numHeads, hnh, mul_assoc, Nat.mul_div_cancel_left _ hz.tp_pos,
      Nat.mul_div_cancel_left _ hz.sp_pos]
  have hlt := queryRow_lt hdvd ht
  have hlength : ∀ x ∈ tokens, (selectHeads sz.headSize (queryRow sz sz.tp t) (f x)).length =
      sz.sp * (sz.numHeads * sz.headSize) := by
    intro x hx
    rw [length_selectHeads (hf x) hlt, queryRow, length_row, hshard, mul_assoc]
  have hnum : 0 < sz.numHeads := by
    apply pos_of_ne_zero
    intro hzero
    rw [hzero, mul_zero] at hshard
    have := Nat.div_pos (Nat.le_of_dvd hz.heads_pos hdvd) hz.tp_pos
    omega
  rw [view_map (mul_pos hz.sp_pos (mul_pos hnum hz.headSize_pos)) tokens hlength]
  apply map_congr_left
  intro x hx
  rw [queryRow, hshard, chunks_selectHeads (hf x)]
  · apply map_congr_left
    intro s hs
    rw [queryRow_exchanged hz, hshard]
  · intro i hi
    rw [← hshard] at hi
    apply hlt
    exact mem_row.mpr ⟨i, hi, by rw [hshard]⟩

/-- What the code cuts the keys or values of a shard into are the heads that the ranks of the sequence
group get in the exchange. -/
theorem view_exchanged (hz : sz.Valid) (tokens : List X) {f : X → List α}
    (hf : ∀ x, (f x).length = sz.kvHeads * sz.headSize) (ht : t < sz.tp) :
    (if sz.isKvReplicated then
        (view (tokens.map fun x => selectHeads sz.headSize (kvRow sz sz.tp t) (f x))
          (sz.sp / sz.replicationFactor) sz.headSize).map fun heads =>
            heads.flatMap fun head => replicate sz.replicationFactor head
      else view (tokens.map fun x => selectHeads sz.headSize (kvRow sz sz.tp t) (f x)) sz.sp
        (sz.numKvHeads * sz.headSize)) = tokens.map fun x =>
        (range sz.sp).map fun s => selectHeads sz.headSize (exchangedKv sz t s) (f x) := by
  have hlt := kvRow_lt hz hz.tp_pos hz.sharded ht
  have hpos : 0 < sz.kvShare := lt_of_lt_of_le one_pos (le_max_left 1 _)
  have hlength : ∀ x ∈ tokens, (selectHeads sz.headSize (kvRow sz sz.tp t) (f x)).length =
      sz.kvShare * sz.headSize := by
    intro x hx
    rw [length_selectHeads (hf x) hlt, kvRow, length_row]
    rfl
  have hindex : ∀ i < sz.kvShare, kvIndex sz.kvHeads sz.tp t i < sz.kvHeads :=
    fun i hi => hlt _ (mem_row.mpr ⟨i, hi, rfl⟩)
  rcases hz.share_cases with ⟨hrep, hview, hfactor⟩ | ⟨hrep, hshare⟩
  · rw [if_pos hrep, hview, view_map (mul_pos hpos hz.headSize_pos) tokens hlength, map_map]
    apply map_congr_left
    intro x hx
    have hchunks := chunks_selectHeads (n := sz.kvShare) (w := 1) (hf x)
      (f := kvIndex sz.kvHeads sz.tp t) (by simpa using hindex)
    simp only [one_mul, mul_one] at hchunks
    have hrow : kvRow sz sz.tp t = row sz.kvShare (kvIndex sz.kvHeads sz.tp t) := rfl
    rw [comp_apply, hrow, hchunks, flatMap_map, flatMap_replicate, hfactor]
    apply map_congr_left
    intro s hs
    rw [exchangedKv, if_pos hrep]
    simp [row]
  · rw [if_neg (by simp [hrep])]
    have hnum : 0 < sz.numKvHeads := Nat.pos_of_mul_pos_left (hshare ▸ hpos)
    rw [hshare] at hlength
    rw [view_map (mul_pos hz.sp_pos (mul_pos hnum hz.headSize_pos)) tokens
      (by simpa [mul_assoc] using hlength)]
    apply map_congr_left
    intro x hx
    have hrow : kvRow sz sz.tp t = row (sz.sp * sz.numKvHeads) (kvIndex sz.kvHeads sz.tp t) := by
      rw [← hshare]
      rfl
    rw [hrow, chunks_selectHeads (hf x) (by rwa [← hshare])]
    apply map_congr_left
    intro s hs
    rw [exchangedKv, if_neg (by simp [hrep])]

theorem exchanged_rows (hz : sz.Valid) (tokens : List X) (f : X → List α) :
    (tokens.map fun x =>
        (range sz.sp).map fun s => selectHeads sz.headSize (exchangedKv sz t s) (f x)) =
      tokens.map fun x => (range sz.sp).map fun s =>
        selectHeads sz.headSize (kvRow sz (sz.tp * sz.sp) (t * sz.sp + s)) (f x) := by
  apply map_congr_left
  intro x hx
  apply map_congr_left
  intro s hs
  rw [(exchanged_kvHeads hz (mem_range.mp hs)).1]

/-- What a rank sends to rank `s` for a token. -/
def message (layer : Layer X α sz) (t s : Nat) (x : X) : List α :=
  selectHeads sz.headSize (queryRow sz (sz.tp * sz.sp) (t * sz.sp + s)) (layer.q x) ++
    selectHeads sz.headSize (kvRow sz (sz.tp * sz.sp) (t * sz.sp + s)) (layer.k x) ++
    selectHeads sz.headSize (kvRow sz (sz.tp * sz.sp) (t * sz.sp + s)) (layer.v x)

/-- The local queries, keys and values of a shard. -/
def localQkv (layer : Layer X α sz) (t : Nat) (tokens : List X) :
    List (List α) × List (List α) × List (List α) :=
  (tokens.map fun x => selectHeads sz.headSize (queryRow sz sz.tp t) (layer.q x),
    tokens.map fun x => selectHeads sz.headSize (kvRow sz sz.tp t) (layer.k x),
    tokens.map fun x => selectHeads sz.headSize (kvRow sz sz.tp t) (layer.v x))

/-- The buffer that a rank sends: for every rank of the group, the messages of its tokens. -/
theorem packQkv_eq (hz : sz.Valid) (layer : Layer X α sz) (tokens : List X) (ht : t < sz.tp) :
    packQkv sz (localQkv layer t tokens).1 (localQkv layer t tokens).2.1
        (localQkv layer t tokens).2.2 =
      ((range sz.sp).map fun s => tokens.map (message layer t s)).flatten := by
  simp only [packQkv, localQkv, view_queries hz tokens layer.length_q ht,
    view_exchanged hz tokens layer.length_k ht, view_exchanged hz tokens layer.length_v ht,
    exchanged_rows hz, zipWith3_map]
  rw [swapAxes_map]
  rfl

/-- The outputs that a rank gets back, token by token. -/
theorem unpackOutput_eq (hsp : 0 < sz.sp) (n : Nat) (g : Nat → Nat → List α) :
    unpackOutput sz ((range sz.sp).flatMap fun j => (range n).map (g j)) =
      (range n).map fun u => (range sz.sp).flatMap fun j => g j u := by
  have hblocks : ∀ x ∈ (range sz.sp).map fun j => (range n).map (g j), x.length = n := by
    intro x hx
    obtain ⟨j, -, rfl⟩ := mem_map.mp hx
    simp
  have hlength := length_flatten_of hblocks
  have hchunks := chunks_flatten hblocks
  rw [length_map, length_range] at hlength hchunks
  rw [flatMap_def]
  simp only [unpackOutput, hlength, Nat.mul_div_cancel_left n hsp, hchunks, swapAxes_map,
    map_map, comp_def, flatMap_def]

end Buffers

/-! ## The attention of a sequence-parallel group -/

section Group

variable {α κ μ X : Type} [Inhabited κ] {sz : Sizes}

theorem shard_lt {t s : Nat} (ht : t < sz.tp) (hs : s < sz.sp) : t * sz.sp + s < sz.tp * sz.sp := by
  calc t * sz.sp + s < t * sz.sp + sz.sp := by omega
    _ = (t + 1) * sz.sp := by rw [Nat.succ_mul]
    _ ≤ sz.tp * sz.sp := Nat.mul_le_mul_right _ ht

theorem message_split (hz : sz.Valid) (layer : Layer X α sz) {t s : Nat} (ht : t < sz.tp)
    (hs : s < sz.sp) (x : X) :
    (message layer t s x).take (sz.numHeads * sz.headSize) =
        selectHeads sz.headSize (queryRow sz (sz.tp * sz.sp) (t * sz.sp + s)) (layer.q x) ∧
      ((message layer t s x).drop (sz.numHeads * sz.headSize)).take
          (sz.numKvHeads * sz.headSize) =
        selectHeads sz.headSize (kvRow sz (sz.tp * sz.sp) (t * sz.sp + s)) (layer.k x) ∧
      ((message layer t s x).drop
          (sz.numHeads * sz.headSize + sz.numKvHeads * sz.headSize)).take
          (sz.numKvHeads * sz.headSize) =
        selectHeads sz.headSize (kvRow sz (sz.tp * sz.sp) (t * sz.sp + s)) (layer.v x) := by
  have hr := shard_lt ht hs
  have hn : 0 < sz.tp * sz.sp := mul_pos hz.tp_pos hz.sp_pos
  have hkv := (exchanged_kvHeads (t := t) hz hs).2
  have hq : (selectHeads sz.headSize (queryRow sz (sz.tp * sz.sp) (t * sz.sp + s))
      (layer.q x)).length = sz.numHeads * sz.headSize := by
    rw [length_selectHeads (layer.length_q x) (queryRow_lt hz.heads_dvd hr), queryRow, length_row,
      Sizes.numHeads, Nat.div_div_eq_div_mul]
  have hk : (selectHeads sz.headSize (kvRow sz (sz.tp * sz.sp) (t * sz.sp + s))
      (layer.k x)).length = sz.numKvHeads * sz.headSize := by
    rw [length_selectHeads (layer.length_k x) (kvRow_lt hz hn hz.sharded_all hr), kvRow, length_row,
      hkv]
  have hv : (selectHeads sz.headSize (kvRow sz (sz.tp * sz.sp) (t * sz.sp + s))
      (layer.v x)).length = sz.numKvHeads * sz.headSize := by
    rw [length_selectHeads (layer.length_v x) (kvRow_lt hz hn hz.sharded_all hr), kvRow, length_row,
      hkv]
  refine ⟨?_, ?_, ?_⟩
  · rw [message, append_assoc, take_left' hq]
  · rw [message, append_assoc, drop_left' hq, take_left' hk]
  · rw [message, drop_left' (by rw [length_append, hq, hk]), ← hv, take_length]

/-- The attention of a group: every rank gets the outputs of all shards for its own tokens, and
caches the KV heads of the full-TP shard with its rank. -/
theorem ulyssesAttention_eq (hz : sz.Valid) (a : Attention α κ μ sz.headSize) (m : μ)
    (layer : Layer X α sz) (caches : List κ) {t : Nat} (ht : t < sz.tp) {xs : List (List X)}
    (hxs : xs.length = sz.sp) {n : Nat} (hlength : ∀ tokens ∈ xs, tokens.length = n) :
    ulyssesAttention sz a m
        ((range sz.sp).map fun s =>
          (kvRow sz (sz.tp * sz.sp) (t * sz.sp + s)).map fun g => caches.getD g default)
        (xs.map (localQkv layer t)) = (range sz.sp).map fun j =>
        ((range n).map fun u => (range sz.sp).flatMap fun s =>
            tokenOut a m layer caches xs.flatten (queryRow sz (sz.tp * sz.sp) (t * sz.sp + s))
              (j * n + u),
          (kvRow sz (sz.tp * sz.sp) (t * sz.sp + j)).map (stored a m layer caches xs.flatten)) := by
  have hdvd := hz.heads_dvd
  have hall : xs.flatten.length = sz.sp * n := by
    rw [length_flatten_of hlength, hxs]
  have hheads : sz.numHeads = sz.heads / (sz.tp * sz.sp) := by
    rw [Sizes.numHeads, Nat.div_div_eq_div_mul]
  have hkv : sz.numKvHeads = max 1 (sz.kvHeads / (sz.tp * sz.sp)) :=
    (exchanged_kvHeads (t := t) hz hz.sp_pos).2
  -- the attention of rank `j` once it has the heads of its shard
  have hshard : ∀ j < sz.sp, attentionForward a sz.numHeads sz.numKvHeads m
      ((kvRow sz (sz.tp * sz.sp) (t * sz.sp + j)).map fun g => caches.getD g default)
      (xs.flatten.map fun x =>
        selectHeads sz.headSize (queryRow sz (sz.tp * sz.sp) (t * sz.sp + j)) (layer.q x))
      (xs.flatten.map fun x =>
        selectHeads sz.headSize (kvRow sz (sz.tp * sz.sp) (t * sz.sp + j)) (layer.k x))
      (xs.flatten.map fun x =>
        selectHeads sz.headSize (kvRow sz (sz.tp * sz.sp) (t * sz.sp + j)) (layer.v x)) =
      ((range (sz.sp * n)).map fun u =>
          tokenOut a m layer caches xs.flatten (queryRow sz (sz.tp * sz.sp) (t * sz.sp + j)) u,
        (kvRow sz (sz.tp * sz.sp) (t * sz.sp + j)).map (stored a m layer caches xs.flatten)) := by
    intro j hj
    rw [hheads, hkv, ← hall]
    exact shard_forward hz a m layer caches xs.flatten hdvd hz.sharded_all (shard_lt ht hj)
  unfold ulyssesAttention
  split_ifs with hone
  · -- one rank: no exchange
    obtain ⟨tokens, rfl⟩ := List.length_eq_one_iff.mp (hxs.trans hone)
    have h0 := hshard 0 hz.sp_pos
    simp only [hone, mul_one, add_zero, one_mul, flatten_cons, flatten_nil, append_nil] at h0 ⊢
    simpa [localQkv] using h0
  · have hpack : (xs.map (localQkv layer t)).map (fun x => packQkv sz x.1 x.2.1 x.2.2) =
        xs.map fun tokens =>
          ((range sz.sp).map fun s => tokens.map (message layer t s)).flatten := by
      rw [map_map]
      apply map_congr_left
      intro tokens htokens
      exact packQkv_eq hz layer tokens ht
    have hreceived : allToAll sz.sp (xs.map fun tokens =>
        ((range sz.sp).map fun s => tokens.map (message layer t s)).flatten) =
          (range sz.sp).map fun j => xs.flatten.map (message layer t j) := by
      rw [allToAll_blocks (k := n) hz.sp_pos xs (by
        intro tokens htokens s hs
        rw [length_map, hlength tokens htokens])]
      apply map_congr_left
      intro j hj
      rw [map_flatten, flatMap_def]
    have hresults : (zipWith (fun cache buffer =>
        attentionForward a sz.numHeads sz.numKvHeads m cache
          (buffer.map fun r => r.take (sz.numHeads * sz.headSize))
          (buffer.map fun r =>
            (r.drop (sz.numHeads * sz.headSize)).take (sz.numKvHeads * sz.headSize))
          (buffer.map fun r =>
            (r.drop (sz.numHeads * sz.headSize + sz.numKvHeads * sz.headSize)).take
              (sz.numKvHeads * sz.headSize)))
        ((range sz.sp).map fun s =>
          (kvRow sz (sz.tp * sz.sp) (t * sz.sp + s)).map fun g => caches.getD g default)
        ((range sz.sp).map fun j => xs.flatten.map (message layer t j))) =
          (range sz.sp).map fun j =>
            ((range (sz.sp * n)).map fun u =>
                tokenOut a m layer caches xs.flatten
                  (queryRow sz (sz.tp * sz.sp) (t * sz.sp + j)) u,
              (kvRow sz (sz.tp * sz.sp) (t * sz.sp + j)).map
                (stored a m layer caches xs.flatten)) := by
      rw [zipWith_map_range]
      apply map_congr_left
      intro j hj
      rw [← hshard j (mem_range.mp hj)]
      have hsplit := message_split hz layer ht (mem_range.mp hj)
      simp only [map_map, comp_def, fun x => (hsplit x).1, fun x => (hsplit x).2.1,
        fun x => (hsplit x).2.2]
    have hback : allToAll sz.sp (((range sz.sp).map fun j =>
        (((range (sz.sp * n)).map fun u =>
            tokenOut a m layer caches xs.flatten (queryRow sz (sz.tp * sz.sp) (t * sz.sp + j)) u),
          (kvRow sz (sz.tp * sz.sp) (t * sz.sp + j)).map
            (stored a m layer caches xs.flatten))).map (·.1)) =
          (range sz.sp).map fun i => (range sz.sp).flatMap fun j =>
            (range n).map fun u => tokenOut a m layer caches xs.flatten
              (queryRow sz (sz.tp * sz.sp) (t * sz.sp + j)) (i * n + u) := by
      rw [map_map]
      simp only [comp_def, map_range_mul]
      exact allToAll_blocks (k := n) hz.sp_pos (range sz.sp) (by simp)
    dsimp only
    rw [hpack, hreceived, hresults, hback, zipWith_map_range]
    apply map_congr_left
    intro i hi
    rw [unpackOutput_eq hz.sp_pos]

end Group

end ArcticPlatform.Ulysses
