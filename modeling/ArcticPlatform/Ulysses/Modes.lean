import ArcticPlatform.Ulysses.Exchange

/-!
# Ulysses and shift mode on one cache

A run takes step after step, each in Ulysses mode or in shift mode, on the caches of
the ranks.  The plain model takes the same steps on one cache of all KV heads.

Main results:

- Theorem `shiftLayer_eq`: a layer in shift mode.
- Theorem `ulyssesLayer_eq`: a layer in Ulysses mode.
- Theorem `modes_agree`: whatever the modes of the steps, every output is that of
  the plain model.
-/

namespace ArcticPlatform.Ulysses

open Meshes Tensors TensorViews List

/-! ## The groups -/

section Groups

variable {sz : Sizes}

/-- The rank of a device in its `SP_TP` group. -/
def spTpRank (sz : Sizes) (rank : Nat) : Nat := sz.spTpGroupRanks.idxOf rank

theorem spGroupRanks_eq : sz.spGroupRanks =
    (range sz.tp).map fun t => (range sz.sp).map fun s => s * sz.tp + t := by
  rw [Sizes.spGroupRanks, Sizes.transposedRanks, Sizes.allRanks, swapAxes_map]

theorem spTpGroupRanks_eq : sz.spTpGroupRanks =
    (range (sz.tp * sz.sp)).map fun r => r % sz.sp * sz.tp + r / sz.sp := by
  rw [Sizes.spTpGroupRanks, ← Sizes.spGroupRanks, spGroupRanks_eq, map_range_mul]
  congr 1
  apply map_congr_left
  intro t ht
  apply map_congr_left
  intro s hs
  obtain ⟨hdiv, hmod⟩ := (digits_iff (i := t) (mem_range.mp hs)).mp rfl
  rw [hdiv, hmod]

theorem spTpGroupRanks_getElem? {t s : Nat} (ht : t < sz.tp) (hs : s < sz.sp) :
    sz.spTpGroupRanks[t * sz.sp + s]? = some (s * sz.tp + t) := by
  obtain ⟨hdiv, hmod⟩ := (digits_iff (i := t) hs).mp rfl
  rw [spTpGroupRanks_eq, getElem?_map, getElem?_range (shard_lt ht hs), Option.map_some, hdiv, hmod]

theorem spTpGroupRanks_nodup : sz.spTpGroupRanks.Nodup := by
  rw [spTpGroupRanks_eq]
  apply Nodup.map_on _ nodup_range
  intro r hr r' hr' heq
  have hdigit : ∀ {r}, r ∈ range (sz.tp * sz.sp) → r / sz.sp < sz.tp :=
    fun hr => Nat.div_lt_of_lt_mul (by rw [mul_comm]; exact mem_range.mp hr)
  obtain ⟨hdiv, hmod⟩ := (digits_iff (hdigit hr)).mp heq
  obtain ⟨hdiv', hmod'⟩ := (digits_iff (hdigit hr')).mp
    (Eq.refl (r' % sz.sp * sz.tp + r' / sz.sp))
  rw [← Nat.div_add_mod' r sz.sp, ← Nat.div_add_mod' r' sz.sp, ← hdiv.symm.trans hdiv',
    ← hmod.symm.trans hmod']

theorem spTpRank_eq {t s : Nat} (ht : t < sz.tp) (hs : s < sz.sp) :
    spTpRank sz (s * sz.tp + t) = t * sz.sp + s := by
  obtain ⟨hlt, hget⟩ := List.getElem?_eq_some_iff.mp (spTpGroupRanks_getElem? ht hs)
  rw [spTpRank, ← hget]
  exact spTpGroupRanks_nodup.idxOf_getElem _ hlt

end Groups

/-! ## Layers -/

section Layers

variable {α κ μ X : Type} [Inhabited κ] {sz : Sizes}

/-- The ranks hold the caches of the KV heads of their full-TP shard. -/
structure RankConsistent (s : Sharding) (sz : Sizes) (caches : List κ) (ranks : RankCaches κ) :
    Prop where
  held : ∀ rank < sz.tp * sz.sp, ranks.getD rank [] =
    (s.kvHeads sz.kvHeads (sz.tp * sz.sp) (spTpRank sz rank)).map fun g => caches.getD g default

theorem map_zipIdx_eq {Y : Type} (post : X → Y → X) (f : Nat → Y) (xs : List X) :
    (xs.zipIdx.map fun entry => post entry.1 (f entry.2)) =
      zipWith post xs ((range xs.length).map f) := by
  apply ext_getElem?
  intro i
  by_cases hi : i < xs.length
  · simp [hi]
  · simp [hi]

theorem flatten_zipIdx {Y : Type} (g : X → Nat → Y) {n : Nat} (xs : List (List X)) (start : Nat)
    (hlength : ∀ tokens ∈ xs, tokens.length = n) :
    ((xs.zipIdx start).map fun entry => entry.1.zipIdx.map fun token =>
        g token.1 (entry.2 * n + token.2)).flatten =
      (xs.flatten.zipIdx (start * n)).map fun token => g token.1 token.2 := by
  induction xs generalizing start with
  | nil => rfl
  | cons tokens xs ih =>
    have hn : tokens.length = n := hlength tokens mem_cons_self
    rw [zipIdx_cons, map_cons, flatten_cons, flatten_cons, zipIdx_append,
      map_append, ih (start + 1) fun t ht => hlength t (mem_cons_of_mem _ ht), hn, Nat.succ_mul]
    congr 1
    apply ext_getElem?
    intro i
    simp [getElem?_zipIdx, add_comm, Function.comp_def]

variable {s : Sharding}

theorem Sharding.Documented.kvRow_eq (hd : s.Documented) (hz : sz.Valid) {r : Nat}
    (hr : r < sz.tp * sz.sp) : s.kvHeads sz.kvHeads (sz.tp * sz.sp) r = kvRow sz (sz.tp * sz.sp) r :=
  kvHeads_eq hd hz.kvHeads_pos (mul_pos hz.tp_pos hz.sp_pos) hz.sharded_all hr

theorem plainLayer_eq (a : Attention α κ μ sz.headSize) (m : μ) (layer : Layer X α sz)
    (caches : List κ) (xs : List X) :
    plainLayer a m layer caches xs = (xs.zipIdx.map fun token =>
          layer.post token.1 (tokenOut a m layer caches xs (range sz.heads) token.2),
        (range sz.kvHeads).map (stored a m layer caches xs)) := by
  rw [map_zipIdx_eq, plainLayer, plain_forward]

theorem map_stored (hz : sz.Valid) (a : Attention α κ μ sz.headSize) (m : μ) (layer : Layer X α sz)
    (caches : List κ) (xs : List X) {r : Nat} (hr : r < sz.tp * sz.sp) :
    (kvRow sz (sz.tp * sz.sp) r).map (stored a m layer caches xs) =
      (kvRow sz (sz.tp * sz.sp) r).map fun g =>
        (plainLayer a m layer caches xs).2.getD g default := by
  apply map_congr_left
  intro g hg
  have hlt := kvRow_lt hz (mul_pos hz.tp_pos hz.sp_pos) hz.sharded_all hr g hg
  rw [plainLayer_eq]
  simp [getD_eq_getElem?_getD, hlt]

variable {caches : List κ} {ranks : RankCaches κ}

theorem RankConsistent.shard (hd : s.Documented) (hz : sz.Valid)
    (h : RankConsistent s sz caches ranks) {t i : Nat} (ht : t < sz.tp) (hi : i < sz.sp) :
    ranks.getD (i * sz.tp + t) [] =
      (kvRow sz (sz.tp * sz.sp) (t * sz.sp + i)).map fun g => caches.getD g default := by
  have hlt : i * sz.tp + t < sz.tp * sz.sp := by
    calc i * sz.tp + t < i * sz.tp + sz.tp := by omega
      _ = (i + 1) * sz.tp := by rw [Nat.succ_mul]
      _ ≤ sz.sp * sz.tp := Nat.mul_le_mul_right _ hi
      _ = sz.tp * sz.sp := mul_comm _ _
  rw [h.held _ hlt, spTpRank_eq ht hi, hd.kvRow_eq hz (shard_lt ht hi)]

/-- Caches that hold, device by device, what the plain model stores are consistent with it. -/
theorem rankConsistent_stored (hz : sz.Valid) (hd : s.Documented)
    (a : Attention α κ μ sz.headSize) (m : μ) (layer : Layer X α sz) (caches : List κ)
    (xs : List X) (h : ∀ t < sz.tp, ∀ i < sz.sp, ranks.getD (i * sz.tp + t) [] =
        (kvRow sz (sz.tp * sz.sp) (t * sz.sp + i)).map (stored a m layer caches xs)) :
    RankConsistent s sz (plainLayer a m layer caches xs).2 ranks := by
  constructor
  intro rank hrank
  have ht : rank % sz.tp < sz.tp := Nat.mod_lt _ hz.tp_pos
  have hi : rank / sz.tp < sz.sp := Nat.div_lt_of_lt_mul hrank
  have hrank : rank / sz.tp * sz.tp + rank % sz.tp = rank := Nat.div_add_mod' rank sz.tp
  have hheld := h _ ht _ hi
  have hspTp := spTpRank_eq ht hi
  rw [hrank] at hheld hspTp
  rw [hheld, hspTp, hd.kvRow_eq hz (shard_lt ht hi), map_stored hz a m layer caches xs (shard_lt ht hi)]

/-- A layer in shift mode. -/
theorem shiftLayer_eq (hz : sz.Valid) (hd : s.Documented) (a : Attention α κ μ sz.headSize) (m : μ)
    (layer : Layer X α sz) (h : RankConsistent s sz caches ranks) (xs : List X) :
    (shiftLayer s a m layer ranks xs).1 = (plainLayer a m layer caches xs).1 ∧
      RankConsistent s sz (plainLayer a m layer caches xs).2
        (shiftLayer s a m layer ranks xs).2 := by
  have hresults : ((range (sz.tp * sz.sp)).map fun r =>
      attentionForward a (s.queryHeads sz.heads (sz.tp * sz.sp) r).length
        (s.kvHeads sz.kvHeads (sz.tp * sz.sp) r).length m
        (ranks.getD (sz.spTpGroupRanks.getD r 0) [])
        (xs.map fun x =>
          selectHeads sz.headSize (s.queryHeads sz.heads (sz.tp * sz.sp) r) (layer.q x))
        (xs.map fun x =>
          selectHeads sz.headSize (s.kvHeads sz.kvHeads (sz.tp * sz.sp) r) (layer.k x))
        (xs.map fun x =>
          selectHeads sz.headSize (s.kvHeads sz.kvHeads (sz.tp * sz.sp) r) (layer.v x))) =
      (range (sz.tp * sz.sp)).map fun r =>
        ((range xs.length).map fun t =>
            tokenOut a m layer caches xs (queryRow sz (sz.tp * sz.sp) r) t,
          (kvRow sz (sz.tp * sz.sp) r).map (stored a m layer caches xs)) := by
    apply map_congr_left
    intro r hr
    rw [mem_range] at hr
    have ht : r / sz.sp < sz.tp := Nat.div_lt_of_lt_mul (by rwa [mul_comm])
    have hi : r % sz.sp < sz.sp := Nat.mod_lt _ hz.sp_pos
    have hdevice := spTpGroupRanks_getElem? ht hi
    have hcache := h.shard hd hz ht hi
    rw [Nat.div_add_mod'] at hdevice hcache
    have hquery : s.queryHeads sz.heads (sz.tp * sz.sp) r = queryRow sz (sz.tp * sz.sp) r :=
      hd.query sz.heads _ r hz.heads_dvd hr
    rw [hquery, hd.kvRow_eq hz hr, getD_eq_getElem?_getD (l := sz.spTpGroupRanks), hdevice,
      Option.getD_some, hcache, queryRow, length_row, ← queryRow, kvRow, length_row, ← kvRow]
    exact shard_forward hz a m layer caches xs hz.heads_dvd hz.sharded_all hr
  constructor
  · rw [plainLayer_eq]
    simp only [shiftLayer, hresults]
    apply map_congr_left
    intro token htoken
    have hlt : token.2 < xs.length := by
      have := snd_lt_of_mem_zipIdx htoken
      simpa using this
    congr 1
    rw [← tokenOut_shards a m layer caches xs hz.heads_dvd, flatMap_map]
    congr 1
    funext r
    simp [getD_eq_getElem?_getD, hlt]
  · apply rankConsistent_stored hz hd
    intro t ht i hi
    have hlt : i * sz.tp + t < sz.tp * sz.sp := by
      rw [mul_comm sz.tp]
      exact @shard_lt ⟨sz.sp, sz.tp, 0, 0, 0⟩ i t hi ht
    have hplace : sz.spTpGroupRanks.idxOf (i * sz.tp + t) = t * sz.sp + i := spTpRank_eq ht hi
    simp only [shiftLayer, hresults]
    simp [getD_eq_getElem?_getD, hlt, hplace, shard_lt ht hi]

/-- A layer in Ulysses mode. -/
theorem ulyssesLayer_eq (hz : sz.Valid) (hd : s.Documented) (a : Attention α κ μ sz.headSize)
    (m : μ) (layer : Layer X α sz) (h : RankConsistent s sz caches ranks) {xs : List (List X)}
    (hxs : xs.length = sz.sp) {n : Nat} (hlength : ∀ tokens ∈ xs, tokens.length = n) :
    (ulyssesLayer s a m layer ranks xs).1.flatten = (plainLayer a m layer caches xs.flatten).1 ∧
      RankConsistent s sz (plainLayer a m layer caches xs.flatten).2
        (ulyssesLayer s a m layer ranks xs).2 := by
  have hresults : ((range sz.tp).map fun t =>
      ulyssesAttention sz a m ((sz.spGroupRanks.getD t []).map fun rank => ranks.getD rank [])
        (xs.map fun tokens =>
          (tokens.map fun x =>
              selectHeads sz.headSize (s.queryHeads sz.heads sz.tp t) (layer.q x),
            tokens.map fun x =>
              selectHeads sz.headSize (s.kvHeads sz.kvHeads sz.tp t) (layer.k x),
            tokens.map fun x =>
              selectHeads sz.headSize (s.kvHeads sz.kvHeads sz.tp t) (layer.v x)))) =
      (range sz.tp).map fun t => (range sz.sp).map fun j =>
        ((range n).map fun u => (range sz.sp).flatMap fun i =>
            tokenOut a m layer caches xs.flatten (queryRow sz (sz.tp * sz.sp) (t * sz.sp + i))
              (j * n + u),
          (kvRow sz (sz.tp * sz.sp) (t * sz.sp + j)).map (stored a m layer caches xs.flatten)) := by
    apply map_congr_left
    intro t ht
    rw [mem_range] at ht
    have hgroup : (sz.spGroupRanks.getD t []).map (fun rank => ranks.getD rank []) =
        (range sz.sp).map fun i =>
          (kvRow sz (sz.tp * sz.sp) (t * sz.sp + i)).map fun g => caches.getD g default := by
      rw [spGroupRanks_eq, getD_eq_getElem?_getD, getElem?_map, getElem?_range ht,
        Option.map_some, Option.getD_some, map_map]
      apply map_congr_left
      intro i hi
      exact h.shard hd hz ht (mem_range.mp hi)
    have hquery : s.queryHeads sz.heads sz.tp t = queryRow sz sz.tp t :=
      hd.query sz.heads _ t ((dvd_mul_right _ _).trans hz.heads_dvd) ht
    have hkv : s.kvHeads sz.kvHeads sz.tp t = kvRow sz sz.tp t :=
      kvHeads_eq hd hz.kvHeads_pos hz.tp_pos hz.sharded ht
    rw [hgroup, hquery, hkv]
    exact ulyssesAttention_eq hz a m layer caches ht hxs hlength
  constructor
  · rw [plainLayer_eq, ← zero_mul n, ← flatten_zipIdx
      (fun x t => layer.post x (tokenOut a m layer caches xs.flatten (range sz.heads) t))
      xs 0 hlength]
    simp only [ulyssesLayer, hresults]
    congr 1
    apply map_congr_left
    intro entry hentry
    have hrank : entry.2 < sz.sp := by
      have := snd_lt_of_mem_zipIdx hentry
      omega
    have htokens : entry.1 ∈ xs := fst_mem_of_mem_zipIdx hentry
    apply map_congr_left
    intro token htoken
    have hplace : token.2 < n := by
      have := snd_lt_of_mem_zipIdx htoken
      rw [← hlength entry.1 htokens]
      omega
    congr 1
    -- shard after shard, each with the ranks of its sequence group
    rw [← tokenOut_shards a m layer caches xs.flatten hz.heads_dvd, ← rows_flatten,
      flatMap_assoc, flatMap_map]
    congr 1
    funext t
    simp [getD_eq_getElem?_getD, hrank, hplace, row, flatMap_map]
  · apply rankConsistent_stored hz hd
    intro t ht i hi
    have hlt : i * sz.tp + t < sz.sp * sz.tp := @shard_lt ⟨sz.sp, sz.tp, 0, 0, 0⟩ i t hi ht
    obtain ⟨hdiv, hmod⟩ := (digits_iff (i := i) ht).mp rfl
    simp only [ulyssesLayer, hresults]
    simp [getD_eq_getElem?_getD, hlt, hdiv, hmod, ht, hi]

end Layers

/-! ## Forwards -/

/-- Layers that simulate each other, one after the other. -/
theorem runLayers_sim {L S S' C C' : Type} {step : L → C → S → S × C}
    {step' : L → C' → S' → S' × C'} {R : S → S' → Prop} {Q : C → C' → Prop}
    (hstep : ∀ layer c c' x x', Q c c' → R x x' →
      R (step layer c x).1 (step' layer c' x').1 ∧ Q (step layer c x).2 (step' layer c' x').2)
    (layers : List L) {cs : List C} {cs' : List C'} (hcs : Forall₂ Q cs cs') {x : S} {x' : S'}
    (hx : R x x') :
    R (runLayers step layers cs x).1 (runLayers step' layers cs' x').1 ∧
      Forall₂ Q (runLayers step layers cs x).2 (runLayers step' layers cs' x').2 := by
  induction layers generalizing cs cs' x x' with
  | nil =>
    simp only [runLayers]
    exact ⟨hx, Forall₂.nil⟩
  | cons layer layers ih =>
    cases hcs with
    | nil =>
      simp only [runLayers]
      exact ⟨hx, Forall₂.nil⟩
    | cons hc hcs =>
      obtain ⟨hx₁, hc₁⟩ := hstep layer _ _ x x' hc hx
      obtain ⟨hx₂, hcs₂⟩ := ih hcs hx₁
      simp only [runLayers]
      exact ⟨hx₂, Forall₂.cons hc₁ hcs₂⟩

section Steps

variable {τ π X α κ μ ω : Type} [Inhabited κ] {sz : Sizes} {s : Sharding}

/-- The caches of all layers. -/
def Consistent (s : Sharding) (sz : Sizes) (caches : List (List κ)) (ranks : List (RankCaches κ)) :
    Prop := Forall₂ (RankConsistent s sz) caches ranks

/-- The caches of the ranks for a number of layers before the first step. -/
def freshCaches (s : Sharding) (sz : Sizes) (layers : Nat) : List (RankCaches κ) :=
  replicate layers ((range (sz.tp * sz.sp)).map fun rank =>
    replicate (s.kvHeads sz.kvHeads (sz.tp * sz.sp) (spTpRank sz rank)).length default)

theorem consistent_fresh (s : Sharding) (sz : Sizes) (layers : Nat) :
    Consistent s sz (replicate layers ([] : List κ)) (freshCaches s sz layers) := by
  induction layers with
  | zero => exact .nil
  | succ layers ih => exact .cons ⟨fun rank hrank => by simp [hrank]⟩ ih

theorem shiftForward_eq (hz : sz.Valid) (hd : s.Documented) (M : Model τ π X α ω sz)
    (a : Attention α κ μ sz.headSize) (m : μ) {caches : List (List κ)}
    {ranks : List (RankCaches κ)} (h : Consistent s sz caches ranks) (tokens : List τ)
    (positions : List π) :
    (shiftForward M s a m ranks tokens positions).1 =
        (plainForward M a m caches tokens positions).1 ∧
      Consistent s sz (plainForward M a m caches tokens positions).2
        (shiftForward M s a m ranks tokens positions).2 := by
  have hstep : ∀ (layer : Layer X α sz) c c' xs xs', RankConsistent s sz c c' → xs' = xs →
      (shiftLayer s a m layer c' xs').1 = (plainLayer a m layer c xs).1 ∧
        RankConsistent s sz (plainLayer a m layer c xs).2 (shiftLayer s a m layer c' xs').2 := by
    intro layer c c' xs xs' hc hxs
    subst hxs
    exact shiftLayer_eq hz hd a m layer hc xs'
  obtain ⟨hxs, hcaches⟩ := runLayers_sim (R := fun xs xs' => xs' = xs) hstep M.layers h
    (rfl : zipWith M.embed tokens positions = _)
  exact ⟨congrArg (map M.output) hxs, hcaches⟩

theorem sliced_flatten {sp n : Nat} (embed : τ → π → X) {tokens : List τ} {positions : List π}
    (htokens : tokens.length = sp * n) (hpositions : positions.length = sp * n) :
    ((range sp).map fun i =>
        zipWith embed (Slices.slice tokens (n * i) (n * i + n))
          (Slices.slice positions (n * i) (n * i + n))).flatten = zipWith embed tokens positions ∧
    ∀ part ∈ (range sp).map fun i =>
        zipWith embed (Slices.slice tokens (n * i) (n * i + n))
          (Slices.slice positions (n * i) (n * i + n)), part.length = n := by
  have hslices : ((range sp).map fun i =>
      zipWith embed (Slices.slice tokens (n * i) (n * i + n))
        (Slices.slice positions (n * i) (n * i + n))) =
      chunks n sp (zipWith embed tokens positions) := by
    apply map_congr_left
    intro i hi
    rw [Slices.slice, Slices.slice, Nat.add_sub_cancel_left, drop_zipWith, take_zipWith, mul_comm]
  have hlength : (zipWith embed tokens positions).length = sp * n := by
    rw [length_zipWith, htokens, hpositions, min_self]
  rw [hslices]
  exact ⟨flatten_chunks hlength, fun part hpart => length_of_mem_chunks hlength hpart⟩

theorem ulyssesForward_eq (hz : sz.Valid) (hd : s.Documented) (M : Model τ π X α ω sz)
    (a : Attention α κ μ sz.headSize) (m : μ) {caches : List (List κ)}
    {ranks : List (RankCaches κ)} (h : Consistent s sz caches ranks) {tokens : List τ}
    {positions : List π} (hpositions : positions.length = tokens.length)
    (hdvd : sz.sp ∣ tokens.length) :
    (ulyssesForward M s a m ranks tokens positions).1 =
        (plainForward M a m caches tokens positions).1 ∧
      Consistent s sz (plainForward M a m caches tokens positions).2
        (ulyssesForward M s a m ranks tokens positions).2 := by
  have htokens : tokens.length = sz.sp * (tokens.length / sz.sp) := (Nat.mul_div_cancel' hdvd).symm
  obtain ⟨hflat, hlength⟩ := sliced_flatten M.embed htokens (hpositions.trans htokens)
  -- the ranks hold the tokens of the batch, evenly shared
  let Split : List X → List (List X) → Prop := fun xs xs' =>
    xs'.flatten = xs ∧ xs'.length = sz.sp ∧ ∀ part ∈ xs', part.length = tokens.length / sz.sp
  have hstep : ∀ (layer : Layer X α sz) c c' xs xs', RankConsistent s sz c c' → Split xs xs' →
      Split (plainLayer a m layer c xs).1 (ulyssesLayer s a m layer c' xs').1 ∧
        RankConsistent s sz (plainLayer a m layer c xs).2 (ulyssesLayer s a m layer c' xs').2 := by
    intro layer c c' xs xs' hc hxs
    obtain ⟨rfl, hcount, hparts⟩ := hxs
    obtain ⟨hout, hheld⟩ := ulyssesLayer_eq hz hd a m layer hc hcount hparts
    refine ⟨⟨hout, by simpa [ulyssesLayer] using hcount, ?_⟩, hheld⟩
    intro part hpart
    simp only [ulyssesLayer] at hpart
    obtain ⟨entry, hentry, rfl⟩ := mem_map.mp hpart
    rw [length_map, length_zipIdx]
    exact hparts _ (fst_mem_of_mem_zipIdx hentry)
  obtain ⟨⟨hxs, -, -⟩, hcaches⟩ := runLayers_sim hstep M.layers h ⟨hflat, by simp, hlength⟩
  refine ⟨?_, hcaches⟩
  have houtput := congrArg (map M.output) hxs
  rw [map_flatten, ← flatMap_def] at houtput
  exact houtput

/-- A step of a run: its mode, the metadata of its batch and the tokens with their positions. -/
structure Step (τ π μ : Type) where
  ulysses : Bool
  metadata : μ
  tokens : List τ
  positions : List π

/-- Every token has one position, and in Ulysses mode the ranks share the tokens evenly. -/
def Step.Valid (sz : Sizes) (step : Step τ π μ) : Prop :=
  step.positions.length = step.tokens.length ∧ (step.ulysses = true → sz.sp ∣ step.tokens.length)

/-- The outputs of the steps of a run on the caches of the ranks. -/
def runModes (M : Model τ π X α ω sz) (s : Sharding) (a : Attention α κ μ sz.headSize) :
    List (Step τ π μ) → List (RankCaches κ) → List (List ω) × List (RankCaches κ)
  | [], ranks => ([], ranks)
  | step :: steps, ranks =>
    let (out, ranks) :=
      if step.ulysses then ulyssesForward M s a step.metadata ranks step.tokens step.positions
      else shiftForward M s a step.metadata ranks step.tokens step.positions
    let (outs, ranks) := runModes M s a steps ranks
    (out :: outs, ranks)

/-- The outputs of the same steps of the plain model. -/
def runPlain (M : Model τ π X α ω sz) (a : Attention α κ μ sz.headSize) :
    List (Step τ π μ) → List (List κ) → List (List ω) × List (List κ)
  | [], caches => ([], caches)
  | step :: steps, caches =>
    let (out, caches) := plainForward M a step.metadata caches step.tokens step.positions
    let (outs, caches) := runPlain M a steps caches
    (out :: outs, caches)

/-- Ulysses mode and shift mode compute the attention of the plain model on one cache: a rank gets
the KV heads of the full-TP shard with its rank, and whatever the modes of the steps, every output
is that of the plain model and the caches stay consistent. -/
theorem modes_agree (hz : sz.Valid) (hd : s.Documented) :
    (∀ t < sz.tp, ∀ i < sz.sp,
      exchangedKv sz t i = s.kvHeads sz.kvHeads (sz.tp * sz.sp) (spTpRank sz (i * sz.tp + t)) ∧
        (sz.spGroupRanks.getD t [])[i]? = some (i * sz.tp + t)) ∧
    ∀ (M : Model τ π X α ω sz) (a : Attention α κ μ sz.headSize) (steps : List (Step τ π μ)),
      (∀ step ∈ steps, step.Valid sz) →
      ∀ (caches : List (List κ)) (ranks : List (RankCaches κ)), Consistent s sz caches ranks →
        (runModes M s a steps ranks).1 = (runPlain M a steps caches).1 ∧
          Consistent s sz (runPlain M a steps caches).2 (runModes M s a steps ranks).2 := by
  constructor
  · intro t ht i hi
    rw [spTpRank_eq ht hi, hd.kvRow_eq hz (shard_lt ht hi)]
    refine ⟨(exchanged_kvHeads hz hi).1, ?_⟩
    rw [spGroupRanks_eq]
    simp [getD_eq_getElem?_getD, ht, hi]
  · intro M a steps
    induction steps with
    | nil => exact fun _ caches ranks h => ⟨rfl, h⟩
    | cons step steps ih =>
      intro hsteps caches ranks h
      obtain ⟨hpositions, hmode⟩ := hsteps step mem_cons_self
      have hforward : ∀ result, result = (if step.ulysses then
            ulyssesForward M s a step.metadata ranks step.tokens step.positions
          else shiftForward M s a step.metadata ranks step.tokens step.positions) →
          result.1 = (plainForward M a step.metadata caches step.tokens step.positions).1 ∧
            Consistent s sz (plainForward M a step.metadata caches step.tokens step.positions).2
              result.2 := by
        intro result hresult
        subst hresult
        cases hul : step.ulysses with
        | true => exact ulyssesForward_eq hz hd M a step.metadata h hpositions (hmode hul)
        | false => exact shiftForward_eq hz hd M a step.metadata h step.tokens step.positions
      obtain ⟨hout, hcaches⟩ := hforward _ rfl
      obtain ⟨houts, hend⟩ := ih (fun st hst => hsteps st (mem_cons_of_mem _ hst)) _ _ hcaches
      simp only [runModes, runPlain]
      exact ⟨by rw [hout, houts], hend⟩

/-- The sharding of vLLM as a function. -/
def evenSharding : Sharding where
  queryHeads heads n r := row (heads / n) fun i => r * (heads / n) + i
  kvHeads kvHeads n r :=
    if n ∣ kvHeads then row (kvHeads / n) fun i => r * (kvHeads / n) + i
    else [r / (n / kvHeads)]

/-- Four ranks that share two KV heads: shift mode replicates them, and so does the exchange of
Ulysses mode, and from fresh caches the outputs are those of the plain model. -/
theorem modes_agree_two_by_two :
    exchangedKv ⟨2, 2, 4, 2, 1⟩ 1 1 = evenSharding.kvHeads 2 4 (spTpRank ⟨2, 2, 4, 2, 1⟩ 3) ∧
      ∀ (M : Model Nat Nat Nat Nat Nat ⟨2, 2, 4, 2, 1⟩) (a : Attention Nat Nat Nat 1)
        (steps : List (Step Nat Nat Nat)), (∀ step ∈ steps, step.Valid ⟨2, 2, 4, 2, 1⟩) →
        (runModes M evenSharding a steps (freshCaches evenSharding ⟨2, 2, 4, 2, 1⟩ 2)).1 =
          (runPlain M a steps [[], []]).1 := by
  have hz : Sizes.Valid ⟨2, 2, 4, 2, 1⟩ := by
    constructor <;> decide
  have hd : evenSharding.Documented := by
    constructor
    · intro heads n r _ _
      rfl
    · intro kvHeads n r hdvd _
      simp only [evenSharding, if_pos hdvd]
    · intro kvHeads n r hdvd hr
      simp only [evenSharding]
      split_ifs with hsplit
      · obtain rfl := Nat.dvd_antisymm hsplit hdvd
        rw [Nat.div_self (by omega)]
        simp [row]
      · rfl
  have h := modes_agree (τ := Nat) (π := Nat) (X := Nat) (α := Nat) (κ := Nat) (μ := Nat) (ω := Nat) hz hd
  exact ⟨(h.1 1 (by decide) 1 (by decide)).1,
    fun M a steps hsteps => (h.2 M a steps hsteps _ _ (consistent_fresh _ _ 2)).1⟩

end Steps

end ArcticPlatform.Ulysses
