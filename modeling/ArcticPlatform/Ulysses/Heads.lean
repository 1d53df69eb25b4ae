import ArcticPlatform.Ulysses.Model

/-!
# Heads of a shard

Which query and KV heads a shard holds, and that an attention on the heads of a
shard computes the outputs that the attention on all heads has for them.

Main results:

- Theorem `kvHeads_grouped`: the KV head that a query head of a shard reads is the
  one it reads among all heads.
- Theorem `shard_forward`: the attention of a shard.
- Theorem `exchanged_kvHeads`: the KV heads of a Ulysses rank are those of the
  full-TP shard with its rank.
-/

namespace ArcticPlatform.Ulysses

open Meshes Tensors TensorViews List

/-! ## Heads of rows -/

section Rows

variable {α : Type} {hs : Nat}

variable {r : List α}

theorem length_headOf {n h : Nat} (hr : r.length = n * hs) (hh : h < n) :
    (headOf hs r h).length = hs := by
  have hle : h * hs + hs ≤ n * hs := by
    rw [← Nat.succ_mul]
    exact Nat.mul_le_mul_right hs hh
  rw [headOf, length_take, length_drop, hr]
  omega

variable {n : Nat} {heads : List Nat}

theorem headOf_selectHeads (hr : r.length = n * hs) (hheads : ∀ h ∈ heads, h < n) {i h : Nat}
    (hi : heads[i]? = some h) : headOf hs (selectHeads hs heads r) i = headOf hs r h := by
  have hblocks : ∀ x ∈ heads.map (headOf hs r), x.length = hs := by
    intro x hx
    obtain ⟨h, hh, rfl⟩ := mem_map.mp hx
    exact length_headOf hr (hheads h hh)
  have hchunks := chunks_flatten hblocks
  have hlt : i < heads.length := (List.getElem?_eq_some_iff.mp hi).1
  have hget := congrArg (·[i]?) hchunks
  rw [getElem?_chunks (by simpa using hlt), getElem?_map, hi, Option.map_some] at hget
  exact Option.some.inj hget

theorem length_selectHeads (hr : r.length = n * hs) (hheads : ∀ h ∈ heads, h < n) :
    (selectHeads hs heads r).length = heads.length * hs := by
  rw [selectHeads, flatMap_def, length_flatten_of (k := hs)]
  · rw [length_map]
  · intro x hx
    obtain ⟨h, hh, rfl⟩ := mem_map.mp hx
    exact length_headOf hr (hheads h hh)

theorem selectHeads_row (n w : Nat) (f : Nat → Nat) (r : List α) :
    selectHeads hs (row (n * w) f) r =
      ((range n).map fun s => selectHeads hs (row w fun i => f (s * w + i)) r).flatten := by
  rw [row, ← rows_flatten, map_flatMap, selectHeads, flatMap_assoc, flatMap_def]
  simp only [row, map_map, selectHeads]
  rfl

theorem chunks_selectHeads {count n w : Nat} (hr : r.length = count * hs) {f : Nat → Nat}
    (hf : ∀ i < n * w, f i < count) :
    chunks (w * hs) n (selectHeads hs (row (n * w) f) r) =
      (range n).map fun s => selectHeads hs (row w fun i => f (s * w + i)) r := by
  have hblocks : ∀ x ∈ (range n).map fun s => selectHeads hs (row w fun i => f (s * w + i)) r,
      x.length = w * hs := by
    intro x hx
    obtain ⟨s, hs', rfl⟩ := mem_map.mp hx
    have hs' := mem_range.mp hs'
    rw [length_selectHeads hr, length_row]
    intro h hh
    obtain ⟨i, hi, rfl⟩ := mem_row.mp hh
    apply hf
    calc s * w + i < s * w + w := by omega
      _ = (s + 1) * w := by rw [Nat.succ_mul]
      _ ≤ n * w := Nat.mul_le_mul_right w hs'
  have hchunks := chunks_flatten hblocks
  rw [length_map, length_range] at hchunks
  rw [selectHeads_row, hchunks]

theorem column_selectHeads {X : Type} {f : X → List α} (hf : ∀ x, (f x).length = n * hs)
    (hheads : ∀ h ∈ heads, h < n) {i h : Nat} (hi : heads[i]? = some h) (xs : List X) :
    column hs (xs.map fun x => selectHeads hs heads (f x)) i = column hs (xs.map f) h := by
  rw [column, column, map_map, map_map]
  apply map_congr_left
  intro x hx
  exact headOf_selectHeads (hf x) hheads hi

end Rows

/-! ## The heads of a shard -/

/-- KV head `i` of shard `r` of `n`. -/
def kvIndex (kvHeads n r i : Nat) : Nat :=
  if n ∣ kvHeads then r * (kvHeads / n) + i else r / (n / kvHeads)

section Shards

variable {s : Sharding} {heads kvHeads n r : Nat}

theorem kvHeads_eq (hs : s.Documented) (hpos : 0 < kvHeads) (hn : 0 < n)
    (hshard : n ∣ kvHeads ∨ kvHeads ∣ n) (hr : r < n) :
    s.kvHeads kvHeads n r = row (max 1 (kvHeads / n)) (kvIndex kvHeads n r) := by
  by_cases hdvd : n ∣ kvHeads
  · have hone : 1 ≤ kvHeads / n := Nat.div_pos (Nat.le_of_dvd hpos hdvd) hn
    rw [hs.split kvHeads n r hdvd hr, max_eq_right hone]
    congr 1
    funext i
    rw [kvIndex, if_pos hdvd]
  · have hdvd' := hshard.resolve_left hdvd
    have hlt : kvHeads < n := by
      refine lt_of_le_of_ne (Nat.le_of_dvd hn hdvd') ?_
      rintro rfl
      exact hdvd (dvd_refl _)
    rw [hs.replicate kvHeads n r hdvd' hr, Nat.div_eq_of_lt hlt]
    simp [row, kvIndex, hdvd]

theorem kvIndex_lt (hpos : 0 < kvHeads) (hn : 0 < n) (hshard : n ∣ kvHeads ∨ kvHeads ∣ n)
    (hr : r < n) {i : Nat} (hi : i < max 1 (kvHeads / n)) : kvIndex kvHeads n r i < kvHeads := by
  rw [kvIndex]
  by_cases hdvd : n ∣ kvHeads
  · obtain ⟨d, rfl⟩ := hdvd
    have hd : 0 < d := Nat.pos_of_mul_pos_left hpos
    rw [Nat.mul_div_cancel_left d hn] at hi ⊢
    rw [if_pos (dvd_mul_right n d)]
    rw [max_eq_right hd] at hi
    calc r * d + i < r * d + d := by omega
      _ = (r + 1) * d := by rw [Nat.succ_mul]
      _ ≤ n * d := Nat.mul_le_mul_right d hr
  · obtain ⟨e, rfl⟩ := hshard.resolve_left hdvd
    rw [if_neg hdvd, Nat.mul_div_cancel_left e hpos]
    exact Nat.div_lt_of_lt_mul (by rwa [mul_comm])

/-- The KV head that query head `i` of a shard reads is the one it reads among all heads. -/
theorem kvHeads_grouped (hpos : 0 < kvHeads) (hheads : 0 < heads) (hn : n ∣ heads)
    (hgrouped : kvHeads ∣ heads) (hshard : n ∣ kvHeads ∨ kvHeads ∣ n) {i : Nat}
    (hi : i < heads / n) :
    i / (heads / n / max 1 (kvHeads / n)) < max 1 (kvHeads / n) ∧
      kvIndex kvHeads n r (i / (heads / n / max 1 (kvHeads / n))) =
        (r * (heads / n) + i) / (heads / kvHeads) := by
  have hn0 : 0 < n := Nat.pos_of_dvd_of_pos hn hheads
  obtain ⟨nh, rfl⟩ := hn
  rw [Nat.mul_div_cancel_left nh hn0] at hi ⊢
  by_cases hdvd : n ∣ kvHeads
  · obtain ⟨d, rfl⟩ := hdvd
    have hd : 0 < d := Nat.pos_of_mul_pos_left hpos
    obtain ⟨G, hG⟩ := Nat.dvd_of_mul_dvd_mul_left hn0 hgrouped
    subst hG
    have hG : 0 < G := pos_of_ne_zero (by rintro rfl; simp at hi)
    have hratio : n * (d * G) / (n * d) = G := by
      rw [← mul_assoc, Nat.mul_div_cancel_left G hpos]
    rw [kvIndex, if_pos (dvd_mul_right n d), Nat.mul_div_cancel_left d hn0,
      max_eq_right hd, Nat.mul_div_cancel_left G hd, hratio]
    refine ⟨Nat.div_lt_of_lt_mul (by rwa [mul_comm]), ?_⟩
    rw [← mul_assoc, add_comm (r * d * G), Nat.add_mul_div_right _ _ hG, add_comm]
  · obtain ⟨e, rfl⟩ := hshard.resolve_left hdvd
    have he : 0 < e := Nat.pos_of_mul_pos_left hn0
    have hlt : kvHeads < kvHeads * e := by
      refine lt_of_le_of_ne (Nat.le_mul_of_pos_right kvHeads he) ?_
      intro heq
      exact hdvd (heq ▸ dvd_refl _)
    have hnh : 0 < nh := Nat.zero_lt_of_lt hi
    rw [kvIndex, if_neg hdvd, Nat.div_eq_of_lt hlt, max_eq_left zero_le, Nat.div_one,
      Nat.div_eq_of_lt hi, Nat.mul_div_cancel_left e hpos, mul_assoc,
      Nat.mul_div_cancel_left _ hpos]
    refine ⟨one_pos, ?_⟩
    rw [mul_comm e nh, ← Nat.div_div_eq_div_mul, add_comm, Nat.add_mul_div_right _ _ hnh,
      Nat.div_eq_of_lt hi, zero_add]

end Shards

/-! ## The attention of a shard -/

section Attend

variable {α κ μ X : Type} [Inhabited κ] {sz : Sizes}

/-- What query head `h` gets among all heads. -/
def headOut (a : Attention α κ μ sz.headSize) (m : μ) (layer : Layer X α sz) (caches : List κ)
    (xs : List X) (h : Nat) : List (List α) :=
  let g := h / (sz.heads / sz.kvHeads)
  a.attend m (caches.getD g default) (column sz.headSize (xs.map layer.k) g)
    (column sz.headSize (xs.map layer.v) g) (column sz.headSize (xs.map layer.q) h)

/-- The outputs of some heads for a token, end to end. -/
def tokenOut (a : Attention α κ μ sz.headSize) (m : μ) (layer : Layer X α sz) (caches : List κ)
    (xs : List X) (heads : List Nat) (t : Nat) : List α :=
  heads.flatMap fun h => (headOut a m layer caches xs h).getD t []

/-- What is stored for KV head `g`. -/
def stored (a : Attention α κ μ sz.headSize) (m : μ) (layer : Layer X α sz) (caches : List κ)
    (xs : List X) (g : Nat) : κ :=
  a.store m (caches.getD g default) (column sz.headSize (xs.map layer.k) g)
    (column sz.headSize (xs.map layer.v) g)

/-- The query heads of shard `r` of `n`. -/
def queryRow (sz : Sizes) (n r : Nat) : List Nat :=
  row (sz.heads / n) fun i => r * (sz.heads / n) + i

/-- The KV heads of shard `r` of `n`. -/
def kvRow (sz : Sizes) (n r : Nat) : List Nat :=
  row (max 1 (sz.kvHeads / n)) (kvIndex sz.kvHeads n r)

variable {n r : Nat}

theorem queryRow_lt (hn : n ∣ sz.heads) (hr : r < n) : ∀ h ∈ queryRow sz n r, h < sz.heads := by
  intro h hh
  obtain ⟨i, hi, rfl⟩ := mem_row.mp hh
  calc r * (sz.heads / n) + i < r * (sz.heads / n) + sz.heads / n := by omega
    _ = (r + 1) * (sz.heads / n) := by rw [Nat.succ_mul]
    _ ≤ n * (sz.heads / n) := Nat.mul_le_mul_right _ hr
    _ = sz.heads := Nat.mul_div_cancel' hn

theorem kvRow_lt (hz : sz.Valid) (hn : 0 < n) (hshard : n ∣ sz.kvHeads ∨ sz.kvHeads ∣ n)
    (hr : r < n) : ∀ h ∈ kvRow sz n r, h < sz.kvHeads := by
  intro h hh
  obtain ⟨i, hi, rfl⟩ := mem_row.mp hh
  exact kvIndex_lt hz.kvHeads_pos hn hshard hr hi

/-- The attention of a shard gives the outputs of its query heads and stores its KV heads. -/
theorem shard_forward (hz : sz.Valid) (a : Attention α κ μ sz.headSize) (m : μ)
    (layer : Layer X α sz) (caches : List κ) (xs : List X) (hn : n ∣ sz.heads)
    (hshard : n ∣ sz.kvHeads ∨ sz.kvHeads ∣ n) (hr : r < n) :
    attentionForward a (sz.heads / n) (max 1 (sz.kvHeads / n)) m
        ((kvRow sz n r).map fun g => caches.getD g default)
        (xs.map fun x => selectHeads sz.headSize (queryRow sz n r) (layer.q x))
        (xs.map fun x => selectHeads sz.headSize (kvRow sz n r) (layer.k x))
        (xs.map fun x => selectHeads sz.headSize (kvRow sz n r) (layer.v x)) =
      ((range xs.length).map fun t => tokenOut a m layer caches xs (queryRow sz n r) t,
        (kvRow sz n r).map (stored a m layer caches xs)) := by
  have hn0 : 0 < n := Nat.pos_of_dvd_of_pos hn hz.heads_pos
  have hkv := kvRow_lt hz hn0 hshard hr
  -- a KV head of the shard, by its place
  have hplace : ∀ {g : Nat}, g < max 1 (sz.kvHeads / n) →
      (kvRow sz n r)[g]? = some (kvIndex sz.kvHeads n r g) := fun hg => row_getElem?.mpr ⟨hg, rfl⟩
  have hcache : ∀ {g : Nat}, g < max 1 (sz.kvHeads / n) →
      ((kvRow sz n r).map fun g => caches.getD g default).getD g default =
        caches.getD (kvIndex sz.kvHeads n r g) default := by
    intro g hg
    rw [getD_eq_getElem?_getD, getElem?_map, hplace hg, Option.map_some, Option.getD_some]
  have houts : ((range (sz.heads / n)).map fun i =>
      a.attend m (((kvRow sz n r).map fun g => caches.getD g default).getD
          (i / (sz.heads / n / max 1 (sz.kvHeads / n))) default)
        (column sz.headSize (xs.map fun x => selectHeads sz.headSize (kvRow sz n r) (layer.k x))
          (i / (sz.heads / n / max 1 (sz.kvHeads / n))))
        (column sz.headSize (xs.map fun x => selectHeads sz.headSize (kvRow sz n r) (layer.v x))
          (i / (sz.heads / n / max 1 (sz.kvHeads / n))))
        (column sz.headSize (xs.map fun x => selectHeads sz.headSize (queryRow sz n r) (layer.q x))
          i)) = (queryRow sz n r).map (headOut a m layer caches xs) := by
    have hmap : (queryRow sz n r).map (headOut a m layer caches xs) =
        (range (sz.heads / n)).map fun i =>
          headOut a m layer caches xs (r * (sz.heads / n) + i) := by
      rw [queryRow, row, map_map]
      rfl
    rw [hmap]
    apply map_congr_left
    intro i hi
    rw [mem_range] at hi
    obtain ⟨hg, hindex⟩ := kvHeads_grouped (r := r) hz.kvHeads_pos hz.heads_pos hn hz.grouped hshard hi
    have hquery : (queryRow sz n r)[i]? = some (r * (sz.heads / n) + i) :=
      row_getElem?.mpr ⟨hi, rfl⟩
    rw [hcache hg, column_selectHeads layer.length_k hkv (hplace hg),
      column_selectHeads layer.length_v hkv (hplace hg),
      column_selectHeads layer.length_q (queryRow_lt hn hr) hquery, hindex]
    rfl
  have hstored : ((range (max 1 (sz.kvHeads / n))).map fun g =>
      a.store m (((kvRow sz n r).map fun g => caches.getD g default).getD g default)
        (column sz.headSize (xs.map fun x => selectHeads sz.headSize (kvRow sz n r) (layer.k x)) g)
        (column sz.headSize (xs.map fun x => selectHeads sz.headSize (kvRow sz n r) (layer.v x))
          g)) = (kvRow sz n r).map (stored a m layer caches xs) := by
    have hmap : (kvRow sz n r).map (stored a m layer caches xs) =
        (range (max 1 (sz.kvHeads / n))).map fun g =>
          stored a m layer caches xs (kvIndex sz.kvHeads n r g) := by
      rw [kvRow, row, map_map]
      rfl
    rw [hmap]
    apply map_congr_left
    intro g hg
    rw [mem_range] at hg
    rw [hcache hg, column_selectHeads layer.length_k hkv (hplace hg),
      column_selectHeads layer.length_v hkv (hplace hg)]
    rfl
  simp only [attentionForward, houts, hstored, length_map, flatMap_map, tokenOut]

theorem plain_forward (a : Attention α κ μ sz.headSize) (m : μ)
    (layer : Layer X α sz) (caches : List κ) (xs : List X) :
    attentionForward a sz.heads sz.kvHeads m caches (xs.map layer.q) (xs.map layer.k)
        (xs.map layer.v) =
      ((range xs.length).map fun t => tokenOut a m layer caches xs (range sz.heads) t,
        (range sz.kvHeads).map (stored a m layer caches xs)) := by
  simp only [attentionForward, length_map, flatMap_map, tokenOut]
  rfl

theorem tokenOut_shards (a : Attention α κ μ sz.headSize) (m : μ) (layer : Layer X α sz)
    (caches : List κ) (xs : List X) {n : Nat} (hn : n ∣ sz.heads) (t : Nat) :
    ((range n).flatMap fun r => tokenOut a m layer caches xs (queryRow sz n r) t) =
      tokenOut a m layer caches xs (range sz.heads) t := by
  have hrows := rows_flatten n (sz.heads / n)
  rw [Nat.mul_div_cancel' hn] at hrows
  rw [tokenOut, ← hrows, flatMap_assoc]
  rfl

end Attend

/-! ## The heads after the exchange -/

section Exchanged

variable {sz : Sizes}

/-- The KV heads that rank `s` of shard `t` gets in the exchange. -/
def exchangedKv (sz : Sizes) (t s : Nat) : List Nat :=
  if sz.isKvReplicated then [kvIndex sz.kvHeads sz.tp t (s / sz.replicationFactor)]
  else row sz.numKvHeads fun i => kvIndex sz.kvHeads sz.tp t (s * sz.numKvHeads + i)

/-- The KV heads are split over all ranks, or split over the shards and copied in the sequence
groups, or already copied over the shards. -/
theorem Sizes.Valid.kv_cases (hz : sz.Valid) :
    (∃ d, 0 < d ∧ sz.kvHeads = sz.tp * (sz.sp * d) ∧ sz.kvShare = sz.sp * d) ∨
    (∃ f, 1 < f ∧ sz.kvHeads = sz.tp * sz.kvShare ∧ sz.sp = sz.kvShare * f) ∨
    (∃ e, 1 < e ∧ sz.tp = sz.kvHeads * e ∧ sz.kvShare = 1) := by
  have htp := hz.tp_pos
  have hkv := hz.kvHeads_pos
  by_cases hdvd : sz.tp ∣ sz.kvHeads
  · obtain ⟨c, hc⟩ := hdvd
    have hcpos : 0 < c := Nat.pos_of_mul_pos_left (hc ▸ hkv)
    have hshare : sz.kvShare = c := by
      rw [Sizes.kvShare, hc, Nat.mul_div_cancel_left c htp, max_eq_right hcpos]
    have hcases := hz.share
    rw [hshare] at hcases ⊢
    by_cases hle : sz.sp ∣ c
    · obtain ⟨d, hd⟩ := hle
      exact .inl ⟨d, Nat.pos_of_mul_pos_left (hd ▸ hcpos), by rw [hc, hd], hd⟩
    · obtain ⟨f, hf⟩ := hcases.resolve_right hle
      refine .inr (.inl ⟨f, ?_, hc, hf⟩)
      have hf0 : f ≠ 0 := by
        rintro rfl
        have := hz.sp_pos
        omega
      have hf1 : f ≠ 1 := by
        rintro rfl
        rw [mul_one] at hf
        exact hle (hf ▸ dvd_refl _)
      omega
  · obtain ⟨e, he⟩ := hz.sharded.resolve_left hdvd
    have he0 : e ≠ 0 := by
      rintro rfl
      omega
    have he1 : e ≠ 1 := by
      rintro rfl
      rw [mul_one] at he
      exact hdvd (he ▸ dvd_refl _)
    have hlt : sz.kvHeads < sz.tp := by
      rw [he]
      exact (Nat.lt_mul_iff_one_lt_right hkv).mpr (by omega)
    refine .inr (.inr ⟨e, by omega, he, ?_⟩)
    rw [Sizes.kvShare, Nat.div_eq_of_lt hlt]
    rfl

theorem Sizes.Valid.sharded_all (hz : sz.Valid) :
    sz.tp * sz.sp ∣ sz.kvHeads ∨ sz.kvHeads ∣ sz.tp * sz.sp := by
  rcases hz.kv_cases with ⟨d, -, hd, -⟩ | ⟨f, -, hc, hf⟩ | ⟨e, -, he, -⟩
  · exact .inl ⟨d, by rw [hd, mul_assoc]⟩
  · exact .inr ⟨f, by rw [hc, mul_assoc, ← hf]⟩
  · exact .inr ⟨e * sz.sp, by rw [he, mul_assoc]⟩

theorem queryRow_exchanged (hz : sz.Valid) (t s : Nat) :
    queryRow sz (sz.tp * sz.sp) (t * sz.sp + s) =
      row sz.numHeads fun i => t * (sz.heads / sz.tp) + (s * sz.numHeads + i) := by
  obtain ⟨nh, hnh⟩ := hz.heads_dvd
  have hnum : sz.heads / (sz.tp * sz.sp) = nh := by
    rw [hnh, Nat.mul_div_cancel_left nh (mul_pos hz.tp_pos hz.sp_pos)]
  have hshard : sz.heads / sz.tp = sz.sp * nh := by
    rw [hnh, mul_assoc, Nat.mul_div_cancel_left _ hz.tp_pos]
  have hheads : sz.numHeads = nh := by rw [Sizes.numHeads, Nat.div_div_eq_div_mul, hnum]
  rw [queryRow, hnum, hheads, hshard]
  congr 1
  funext i
  ring

/-- The KV heads of a rank after the exchange are those of the full-TP shard with its rank. -/
theorem exchanged_kvHeads (hz : sz.Valid) {t s : Nat} (hs : s < sz.sp) :
    exchangedKv sz t s = kvRow sz (sz.tp * sz.sp) (t * sz.sp + s) ∧
      sz.numKvHeads = max 1 (sz.kvHeads / (sz.tp * sz.sp)) := by
  have htp := hz.tp_pos
  have hsp := hz.sp_pos
  have hkv := hz.kvHeads_pos
  have hn : 0 < sz.tp * sz.sp := mul_pos htp hsp
  rcases hz.kv_cases with ⟨d, hd, hkvd, hshare⟩ | ⟨f, hf, hkvc, hspf⟩ | ⟨e, he, htpe, hshare⟩
  · -- every rank has its own heads
    have hrep : sz.isKvReplicated = false := by
      simp only [Sizes.isKvReplicated, hshare, decide_eq_false_iff_not, not_lt]
      exact Nat.le_mul_of_pos_right _ hd
    have hnum : sz.numKvHeads = d := by
      simp [Sizes.numKvHeads, hrep, hshare, Nat.mul_div_cancel_left d hsp]
    have hall : sz.kvHeads / (sz.tp * sz.sp) = d := by
      rw [hkvd, ← mul_assoc, Nat.mul_div_cancel_left d hn]
    have hshard : sz.kvHeads / sz.tp = sz.sp * d := by
      rw [hkvd, Nat.mul_div_cancel_left _ htp]
    have hdvd : sz.tp ∣ sz.kvHeads := ⟨_, hkvd⟩
    have hdvd' : sz.tp * sz.sp ∣ sz.kvHeads := ⟨d, by rw [hkvd, mul_assoc]⟩
    rw [exchangedKv, kvRow, hrep, hnum, hall, max_eq_right hd]
    refine ⟨?_, rfl⟩
    simp only [Bool.false_eq_true, if_false]
    congr 1
    funext i
    rw [kvIndex, kvIndex, if_pos hdvd, if_pos hdvd', hall, hshard]
    ring
  · -- the heads of a shard are copied in its sequence group
    have hc : 0 < sz.kvShare := Nat.pos_of_mul_pos_left (hkvc ▸ hkv)
    have hrep : sz.isKvReplicated = true := by
      simp only [Sizes.isKvReplicated, decide_eq_true_eq]
      conv_rhs => rw [hspf]
      exact (Nat.lt_mul_iff_one_lt_right hc).mpr hf
    have hfactor : sz.replicationFactor = f := by
      rw [Sizes.replicationFactor]
      conv_lhs => rw [hspf]
      exact Nat.mul_div_cancel_left f hc
    have hall : sz.tp * sz.sp = sz.kvHeads * f := by rw [hkvc, mul_assoc, ← hspf]
    have hlt : sz.kvHeads < sz.tp * sz.sp := by
      rw [hall]
      exact (Nat.lt_mul_iff_one_lt_right hkv).mpr hf
    have hndvd : ¬sz.tp * sz.sp ∣ sz.kvHeads := fun h => absurd (Nat.le_of_dvd hkv h) (by omega)
    have hdvd : sz.tp ∣ sz.kvHeads := ⟨_, hkvc⟩
    have hshard : sz.kvHeads / sz.tp = sz.kvShare := by
      conv_lhs => rw [hkvc]
      exact Nat.mul_div_cancel_left _ htp
    have hone : max 1 (sz.kvHeads / (sz.tp * sz.sp)) = 1 := by
      rw [Nat.div_eq_of_lt hlt]
      rfl
    rw [exchangedKv, kvRow, hrep, hone]
    refine ⟨?_, by simp [Sizes.numKvHeads, hrep]⟩
    have hindex : kvIndex sz.kvHeads (sz.tp * sz.sp) (t * sz.sp + s) 0 =
        kvIndex sz.kvHeads sz.tp t (s / f) := by
      rw [kvIndex, kvIndex, if_pos hdvd, if_neg hndvd, hshard]
      conv_lhs => rw [hall, Nat.mul_div_cancel_left f hkv, hspf, ← mul_assoc, add_comm,
        Nat.add_mul_div_right _ _ (by omega : 0 < f), add_comm]
    simp [row, hfactor, hindex]
  · -- consecutive shards have one head
    have hlt : sz.kvHeads < sz.tp := by
      rw [htpe]
      exact (Nat.lt_mul_iff_one_lt_right hkv).mpr he
    have hle : sz.tp ≤ sz.tp * sz.sp := Nat.le_mul_of_pos_right _ hsp
    have hndvd : ¬sz.tp ∣ sz.kvHeads := fun h => absurd (Nat.le_of_dvd hkv h) (by omega)
    have hndvd' : ¬sz.tp * sz.sp ∣ sz.kvHeads := fun h => absurd (Nat.le_of_dvd hkv h) (by omega)
    have hone : max 1 (sz.kvHeads / (sz.tp * sz.sp)) = 1 := by
      rw [Nat.div_eq_of_lt (by omega)]
      rfl
    have hratio : sz.tp * sz.sp / sz.kvHeads = e * sz.sp := by
      conv_lhs => rw [htpe, mul_assoc]
      exact Nat.mul_div_cancel_left _ hkv
    have hratio' : sz.tp / sz.kvHeads = e := by
      conv_lhs => rw [htpe]
      exact Nat.mul_div_cancel_left _ hkv
    have hindex : ∀ i j, kvIndex sz.kvHeads (sz.tp * sz.sp) (t * sz.sp + s) i =
        kvIndex sz.kvHeads sz.tp t j := by
      intro i j
      rw [kvIndex, kvIndex, if_neg hndvd, if_neg hndvd', hratio, hratio', mul_comm e,
        ← Nat.div_div_eq_div_mul, add_comm, Nat.add_mul_div_right _ _ hsp,
        Nat.div_eq_of_lt hs, zero_add]
    have hnum : sz.numKvHeads = 1 := by
      rw [Sizes.numKvHeads]
      split_ifs with hrep
      · rfl
      · have hsp1 : sz.sp = 1 := by
          simp only [Sizes.isKvReplicated, hshare, decide_eq_true_eq] at hrep
          omega
        rw [hshare, hsp1]
    rw [exchangedKv, kvRow, hone, hnum]
    refine ⟨?_, rfl⟩
    split_ifs
    · simp [row, hindex 0 (s / sz.replicationFactor)]
    · simp [row, hindex 0 s]

end Exchanged

end ArcticPlatform.Ulysses
