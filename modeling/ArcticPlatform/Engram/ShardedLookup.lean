import ArcticPlatform.Library.Chunks
import ArcticPlatform.Library.IndexWrites
import ArcticPlatform.Library.StableSort

/-!
# Sharded lookup of Engram rows

An embedding of `ep_row_shard` and `EngramEmbedding._exchange`, run by all ranks of a group
together.  A row of a shard is what the table keeps of it, and is decoded when it is looked up: packed
values and scales, or the values themselves.

Main results:

- Theorem `existsUnique_shard`: every row of the table is kept by one rank.
- Theorem `recvIds_eq`: what a rank is asked for.
- Theorem `exchange_eq_lookup`: every rank gets the rows of its own ids, in their order.
-/

namespace ArcticPlatform.Engram

open StableSort Tensors Chunks Results List

/-! ## Shards -/

/-- The rows of a full shard. -/
def shardChunk (numRows worldSize : Nat) : Nat := (numRows + worldSize - 1) / worldSize

/-- `ep_row_shard`. -/
def epRowShard (numRows worldSize rank : Nat) : Except String (Nat × Nat) :=
  if worldSize < 1 ∨ rank ≥ worldSize then
    .error ("invalid EP rank " ++ toString rank ++ " of world " ++ toString worldSize)
  else
    let start := min numRows (shardChunk numRows worldSize * rank)
    .ok (start, min numRows (start + shardChunk numRows worldSize))

/-! ## The exchange -/

section Exchange

variable {α : Type}

/-- `dist.all_to_all_single`: a rank gets from every rank the split that is for it. -/
def received (world : Nat) (inputs : Nat → List α) (splits : Nat → List Nat) (rank : Nat) : List α :=
  (range world).flatMap fun i => (cut (splits i) (inputs i)).getD rank []

/-- `torch.bincount`. -/
def bincount (keys : List Nat) (minlength : Nat) : List Nat :=
  (range (keys.foldr (fun k n => max (k + 1) n) minlength)).map fun k => keys.count k

/-- `output[order] = rows`, for an empty output with the shape of the rows; `none` is a row that
was not written. -/
def scatterRows (order : List Nat) (rows : List α) : List (Option α) :=
  (order.zip (rows.map some)).foldl (fun output entry => output.set entry.1 entry.2)
    (rows.map fun _ => none)

end Exchange

/-- A table that is sharded over the ranks of a group, and the ids that every rank looks up.  Rows are kept
as `P` and decoded to `R`. -/
structure Lookup (P R : Type) where
  table : List P
  decode : P → R
  world : Nat
  flat : Nat → List Nat
  table_pos : 0 < table.length
  world_pos : 0 < world
  in_table : ∀ rank, ∀ id ∈ flat rank, id < table.length

/-- What an exchange raises. -/
inductive ExchangeError
  | shard (message : String)
  | notOwned
  | tensor (e : TensorError)

namespace Lookup

variable {P R : Type} (l : Lookup P R)

def chunk : Nat := shardChunk l.table.length l.world

def owners (rank : Nat) : List Nat := (l.flat rank).map (· / l.chunk)

def order (rank : Nat) : List Nat := argsort (l.owners rank)

def sendIds (rank : Nat) : List Nat := (l.order rank).map fun p => (l.flat rank).getD p 0

def sendCounts (rank : Nat) : List Nat := bincount (l.owners rank) l.world

def recvCounts (rank : Nat) : List Nat :=
  received l.world l.sendCounts (fun _ => replicate l.world 1) rank

def recvIds (rank : Nat) : List Nat := received l.world l.sendIds l.sendCounts rank

/-- The rows that a rank keeps. -/
def weight (start stop : Nat) : List P := (l.table.take stop).drop start

/-- `_lookup`. -/
def lookup (weight : List P) (localIds : List Int) : Except ExchangeError (List R) :=
  match indexSelect weight localIds with
  | .error e => .error (.tensor e)
  | .ok rows => .ok (rows.map l.decode)

/-- `_exchange` of a rank, up to the rows that it looks up for the others. -/
def localRows (rank : Nat) : Except ExchangeError (List R) :=
  match epRowShard l.table.length l.world rank with
  | .error message => .error (.shard message)
  | .ok (start, stop) =>
    if (l.recvIds rank).any fun id => id < start || id ≥ stop then .error .notOwned
    else l.lookup (l.weight start stop) ((l.recvIds rank).map fun (id : Nat) => (id : Int) - start)

/-- The end of `_exchange`, from the rows that all ranks have looked up. -/
def output (rows : Nat → List R) (rank : Nat) : List (Option R) :=
  scatterRows (l.order rank) (received l.world rows l.recvCounts rank)

/-- `_exchange` of all ranks. -/
def exchange : Except ExchangeError (List (List (Option R))) :=
  ((range l.world).mapM l.localRows).map fun rows =>
    (range l.world).map (l.output fun rank => rows.getD rank [])

end Lookup

/-! ## Owners -/

section Owners

variable {n world : Nat}

theorem shardChunk_pos (hn : 0 < n) (hworld : 0 < world) : 0 < shardChunk n world :=
  Nat.div_pos (by omega) hworld

theorem le_chunk_mul (hworld : 0 < world) : n ≤ world * shardChunk n world := by
  have hlt := Nat.lt_div_mul_add (a := n + world - 1) hworld
  rw [shardChunk, mul_comm]
  omega

theorem owner_lt (hworld : 0 < world) {id : Nat} (hid : id < n) : id / shardChunk n world < world :=
  Nat.div_lt_of_lt_mul (hid.trans_le (by rw [mul_comm]; exact le_chunk_mul hworld))

theorem shard_iff {rank id start stop : Nat} (hn : 0 < n)
    (hshard : epRowShard n world rank = .ok (start, stop)) :
    start ≤ id ∧ id < stop ↔ id < n ∧ id / shardChunk n world = rank := by
  rw [epRowShard] at hshard
  split at hshard
  · cases hshard
  · rename_i hrank
    have hchunk : 0 < shardChunk n world := shardChunk_pos hn (by omega)
    cases hshard
    rw [Nat.div_eq_iff hchunk, mul_comm rank]
    obtain ⟨c, hc⟩ : ∃ c, c = shardChunk n world * rank := ⟨_, rfl⟩
    rw [← hc]
    omega

/-- Every row of the table is kept by one rank. -/
theorem existsUnique_shard (hn : 0 < n) (hworld : 0 < world) {id : Nat} (hid : id < n) :
    ∃! rank, ∃ start stop, epRowShard n world rank = .ok (start, stop) ∧ start ≤ id ∧ id < stop := by
  have hlt := owner_lt hworld hid
  obtain ⟨start, stop, hshard⟩ : ∃ start stop,
      epRowShard n world (id / shardChunk n world) = .ok (start, stop) :=
    ⟨_, _, by rw [epRowShard, if_neg (by omega)]⟩
  refine ⟨id / shardChunk n world, ⟨start, stop, hshard, (shard_iff hn hshard).mpr ⟨hid, rfl⟩⟩, ?_⟩
  rintro rank ⟨start', stop', hshard', hmem⟩
  exact ((shard_iff hn hshard').mp hmem).2.symm

end Owners

/-! ## What is sent -/

section Blocks

variable {α : Type} {world : Nat}

theorem received_blocks (block : Nat → Nat → List α) {rank : Nat} (hrank : rank < world) :
    received world (fun i => (range world).flatMap (block i))
        (fun i => (range world).map fun k => (block i k).length) rank =
      (range world).flatMap fun i => block i rank := by
  refine flatMap_congr fun i _ => ?_
  have hcut := cut_flatten ((range world).map (block i))
  rw [map_map, ← flatMap_def] at hcut
  have hpiece := congrArg (fun blocks => blocks.getD rank []) hcut
  refine hpiece.trans ?_
  rw [getD_eq_getElem?_getD, getElem?_map, getElem?_range hrank]
  rfl

theorem bincount_eq {keys : List Nat} {n : Nat} (hkeys : ∀ k ∈ keys, k < n) :
    bincount keys n = (range n).map fun k => keys.count k := by
  have hlength : keys.foldr (fun k n => max (k + 1) n) n = n := by
    induction keys with
    | nil => rfl
    | cons k keys ih =>
      rw [foldr_cons, ih fun k' hk' => hkeys k' (mem_cons_of_mem _ hk')]
      exact max_eq_right (hkeys k mem_cons_self)
  rw [bincount, hlength]

end Blocks

namespace Lookup

variable {P R : Type} (l : Lookup P R)

/-- The ids of a rank that another one owns. -/
def owned (rank owner : Nat) : List Nat := (l.flat rank).filter fun id => id / l.chunk = owner

theorem mem_owned {rank owner id : Nat} :
    id ∈ l.owned rank owner ↔ id ∈ l.flat rank ∧ id / l.chunk = owner := by
  rw [owned, mem_filter, decide_eq_true_eq]

theorem owners_lt (rank : Nat) : ∀ k ∈ l.owners rank, k < l.world := by
  intro k hk
  obtain ⟨id, hid, rfl⟩ := mem_map.mp hk
  exact owner_lt l.world_pos (l.in_table rank id hid)

theorem map_positions (rank owner : Nat) :
    (positions (l.owners rank) owner).map (fun p => (l.flat rank).getD p 0) = l.owned rank owner := by
  have hflat : (range (l.flat rank).length).map (fun p => (l.flat rank).getD p 0) = l.flat rank := by
    apply ext_getElem?
    intro p
    by_cases hp : p < (l.flat rank).length <;> simp [hp, getD_eq_getElem?_getD]
  rw [positions, owned]
  conv_rhs => rw [← hflat, filter_map]
  rw [owners, length_map]
  congr 1
  apply filter_congr
  intro p hp
  have hlt := mem_range.mp hp
  simp [hlt]

theorem sendIds_eq (rank : Nat) : l.sendIds rank = (range l.world).flatMap (l.owned rank) := by
  rw [sendIds, order, argsort_eq (l.owners_lt rank), map_flatMap]
  exact flatMap_congr fun owner _ => l.map_positions rank owner

theorem sendCounts_eq (rank : Nat) :
    l.sendCounts rank = (range l.world).map fun owner => (l.owned rank owner).length := by
  rw [sendCounts, bincount_eq (l.owners_lt rank)]
  refine map_congr_left fun owner _ => ?_
  rw [← length_positions, ← l.map_positions, length_map]

variable {rank : Nat}

theorem recvCounts_eq (hrank : rank < l.world) :
    l.recvCounts rank = (range l.world).map fun i => (l.owned i rank).length := by
  have hblocks := received_blocks (fun i k => [(l.owned i k).length]) hrank
  have hsend : (fun i => (range l.world).flatMap fun k => [(l.owned i k).length]) = l.sendCounts :=
    funext fun i => by rw [sendCounts_eq, map_eq_flatMap]
  have hones : ((range l.world).map fun _ => 1) = replicate l.world 1 := by
    rw [map_const', length_range]
  simp only [length_singleton, hones] at hblocks
  rw [recvCounts, ← hsend, hblocks, map_eq_flatMap]

/-- A rank is asked for the ids that it owns, rank by rank. -/
theorem recvIds_eq (hrank : rank < l.world) :
    l.recvIds rank = (range l.world).flatMap fun i => l.owned i rank := by
  rw [recvIds, funext l.sendIds_eq, funext l.sendCounts_eq, received_blocks l.owned hrank]

/-! ## What comes back -/

/-- The row of an id. -/
def row (id : Nat) : R := l.decode (l.table.getD id (l.table.head (ne_nil_of_length_pos l.table_pos)))

theorem getElem?_table {id : Nat} (hid : id < l.table.length) :
    l.table[id]?.map l.decode = some (l.row id) := by
  rw [row, getD_eq_getElem?_getD, getElem?_eq_getElem hid]
  rfl

theorem localRows_eq (hrank : rank < l.world) :
    l.localRows rank = .ok ((l.recvIds rank).map l.row) := by
  obtain ⟨start, stop, hshard⟩ : ∃ start stop,
      epRowShard l.table.length l.world rank = .ok (start, stop) :=
    ⟨_, _, by rw [epRowShard, if_neg (by omega)]⟩
  have hmem : ∀ id ∈ l.recvIds rank, start ≤ id ∧ id < stop ∧ id < l.table.length := by
    intro id hid
    rw [l.recvIds_eq hrank, mem_flatMap] at hid
    obtain ⟨i, -, hid⟩ := hid
    obtain ⟨hflat, howner⟩ := l.mem_owned.mp hid
    have hlt := l.in_table i id hflat
    obtain ⟨hstart, hstop⟩ := (shard_iff l.table_pos hshard).mpr ⟨hlt, howner⟩
    exact ⟨hstart, hstop, hlt⟩
  have howned : ((l.recvIds rank).any fun id => id < start || id ≥ stop) = false := by
    rw [any_eq_false]
    intro id hid
    obtain ⟨hstart, hstop, -⟩ := hmem id hid
    simp only [ge_iff_le, Bool.or_eq_true, decide_eq_true_eq]
    omega
  simp only [localRows, hshard, howned, Bool.false_eq_true, if_false, lookup]
  rw [indexSelect_ok (l.table.head (ne_nil_of_length_pos l.table_pos))]
  · simp only [map_map, Except.ok.injEq, map_inj_left]
    intro id hid
    obtain ⟨hstart, hstop, -⟩ := hmem id hid
    have hplace : ((id : Int) - start).toNat = id - start := by omega
    simp only [Function.comp_apply, row, hplace, weight, getD_eq_getElem?_getD,
      getElem?_drop, Nat.add_sub_cancel' hstart, getElem?_take, if_pos hstop]
  · intro id hid
    obtain ⟨hstart, hstop, hlt⟩ := hmem id hid
    rw [weight, length_drop, length_take]
    omega

/-- The rows come back in the order in which the ids were sent, and are put at the places of the ids. -/
theorem output_eq (hrank : rank < l.world) {rows : Nat → List R}
    (hrows : ∀ i < l.world, rows i = (l.recvIds i).map l.row) :
    l.output rows rank = (l.flat rank).map fun id => l.table[id]?.map l.decode := by
  have hgathered : received l.world rows l.recvCounts rank = (l.sendIds rank).map l.row := by
    have hblocks := received_blocks (fun i j => (l.owned j i).map l.row) hrank
    rw [l.sendIds_eq, map_flatMap, ← hblocks]
    refine flatMap_congr fun i hi => ?_
    have hlt := mem_range.mp hi
    rw [hrows i hlt, l.recvIds_eq hlt, l.recvCounts_eq hlt, map_flatMap]
    simp only [length_map]
  have hpairs : (l.order rank).zip (((l.sendIds rank).map l.row).map some) =
      (l.order rank).map fun p => (p, some (l.row ((l.flat rank).getD p 0))) := by
    rw [sendIds, map_map, map_map]
    conv_lhs => rw [← map_id (l.order rank), map_map, zip_map']
    rfl
  have hperm : (l.order rank).Perm (range (l.flat rank).length) := by
    have hargsort := argsort_perm (l.owners rank)
    rwa [owners, length_map] at hargsort
  have hlength : (((l.sendIds rank).map l.row).map fun _ => (none : Option R)).length =
      (l.flat rank).length := by
    rw [length_map, length_map, sendIds, length_map, hperm.length_eq, length_range]
  rw [output, hgathered, scatterRows, hpairs, IndexWrites.foldl_set_perm _ hperm hlength]
  apply ext_getElem?
  intro p
  by_cases hp : p < (l.flat rank).length
  · have hid := l.in_table rank _ (getElem_mem hp)
    simp only [getElem?_map, getElem?_range hp, getElem?_eq_getElem hp, Option.map_some,
      getD_eq_getElem?_getD, Option.getD_some]
    exact congrArg some (l.getElem?_table hid).symm
  · simp [hp]

theorem exchange_eq_ok :
    l.exchange = .ok ((range l.world).map fun rank =>
      (l.flat rank).map fun id => l.table[id]?.map l.decode) := by
  have hrows : (range l.world).mapM l.localRows =
      .ok ((range l.world).map fun rank => (l.recvIds rank).map l.row) :=
    mapM_ok fun rank hrank => l.localRows_eq (mem_range.mp hrank)
  rw [exchange, hrows]
  refine congrArg Except.ok (map_congr_left fun rank hrank => ?_)
  refine l.output_eq (mem_range.mp hrank) fun i hi => ?_
  rw [getD_eq_getElem?_getD, getElem?_map, getElem?_range hi]
  rfl

/-! ## The splits of the exchanges -/

theorem recvCounts_getElem? {i k : Nat} (hi : i < l.world) (hk : k < l.world) :
    (l.recvCounts k)[i]? = (l.sendCounts i)[k]? := by
  rw [l.recvCounts_eq hk, l.sendCounts_eq, getElem?_map, getElem?_map, getElem?_range hi,
    getElem?_range hk]
  rfl

/-- The splits of a rank are for all ranks, and cut all that it sends and all that it gets. -/
theorem sum_splits (hrank : rank < l.world) :
    ((l.sendCounts rank).length = l.world ∧ (l.sendCounts rank).sum = (l.flat rank).length) ∧
      (l.recvCounts rank).length = l.world ∧ (l.recvCounts rank).sum = (l.recvIds rank).length := by
  have hsent : (l.sendIds rank).length = (l.flat rank).length := by
    rw [sendIds, length_map, order, (argsort_perm _).length_eq, length_range, owners, length_map]
  rw [← hsent, l.recvCounts_eq hrank, l.recvIds_eq hrank, l.sendCounts_eq, l.sendIds_eq]
  simp [length_flatMap]

/-- The exchange of all ranks gives each one the rows of its own ids in their order, and none of them
raises; the splits of all transfers match; and every row of the table is kept by exactly one rank. -/
theorem exchange_eq_lookup :
    l.exchange = .ok ((range l.world).map fun rank =>
        (l.flat rank).map fun id => l.table[id]?.map l.decode) ∧
      (∀ rank < l.world, ∃ rows, l.localRows rank = .ok rows ∧
        rows.length = (l.recvIds rank).length) ∧
      (∀ i < l.world, ∀ k < l.world, (l.recvCounts k)[i]? = (l.sendCounts i)[k]?) ∧
      (∀ rank < l.world,
        ((l.sendCounts rank).length = l.world ∧ (l.sendCounts rank).sum = (l.flat rank).length) ∧
          (l.recvCounts rank).length = l.world ∧
            (l.recvCounts rank).sum = (l.recvIds rank).length) ∧ (∀ rank < l.world, ∃ start stop,
        epRowShard l.table.length l.world rank = .ok (start, stop) ∧ start ≤ stop ∧
          stop ≤ l.table.length) ∧ ∀ id < l.table.length, ∃! rank, ∃ start stop,
        epRowShard l.table.length l.world rank = .ok (start, stop) ∧ start ≤ id ∧ id < stop := by
  refine ⟨l.exchange_eq_ok, fun rank hrank => ⟨_, l.localRows_eq hrank, length_map _⟩,
    fun i hi k hk => l.recvCounts_getElem? hi hk, fun rank hrank => l.sum_splits hrank,
    fun rank hrank => ?_, fun id hid => existsUnique_shard l.table_pos l.world_pos hid⟩
  exact ⟨_, _, by rw [epRowShard, if_neg (by omega)], by omega, by omega⟩

/-- Three rows on two ranks. -/
example :
    let l : Lookup Nat Nat :=
      ⟨[10, 20, 30], id, 2, fun r => [2 - r, 0], by decide, by decide, fun r => by simp; omega⟩
    l.exchange.toOption = some [[some 30, some 10], [some 20, some 10]] := by decide_cbv

end Lookup

end ArcticPlatform.Engram
