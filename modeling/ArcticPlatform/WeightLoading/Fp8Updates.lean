import ArcticPlatform.Library.Dict
import ArcticPlatform.Library.Results
import ArcticPlatform.WeightSync.Model

/-!
# In-place updates of FP8 weights

An embedding of `_FP8InplaceUpdater` and `_load_fp8`.  A received tensor is its shape and dtype;
what the updater writes is kept as the positions of the received tensors.  The loaders of vLLM and the
copies of torch, which may raise, are parameters.

Main results:

- Theorem `feed_cases`: what one tensor does.
- Theorem `fed_feedAll`: buffers and flushes are the feeds of a module, cut at its shard count.
- Theorem `loadFp8_complete_iff`: when a sync that does not raise has written everything.
-/

namespace ArcticPlatform.WeightLoading

open Dicts WeightSync Function
open List hiding lookup

/-! ## Names -/

abbrev Name := List Char

/-- `name[: -len(suffix)]` of a name that ends with the suffix. -/
def dropSuffix? (suffix name : Name) : Option Name :=
  if suffix <:+ name then some (name.take (name.length - suffix.length)) else none

/-- `name.rpartition(".")`, without the dot. -/
def rpartition (name : Name) : Name × Name :=
  (((name.reverse.dropWhile (· ≠ '.')).drop 1).reverse, (name.reverse.takeWhile (· ≠ '.')).reverse)

/-- A scan of `str.replace`, with the number of characters of a match still to skip. -/
def replaceFrom (pattern new : Name) : Nat → Name → Name
  | _, [] => []
  | 0, c :: rest =>
    if pattern <+: c :: rest then new ++ replaceFrom pattern new (pattern.length - 1) rest
    else c :: replaceFrom pattern new 0 rest
  | skip + 1, _ :: rest => replaceFrom pattern new skip rest

/-- `name.replace(pattern, new)`, for a pattern that is not empty. -/
def replace (name pattern new : Name) : Name := replaceFrom pattern new 0 name

/-! ## The model of the inference engine -/

structure Tensor where
  shape : List Nat
  dtype : Dtype

/-- `tensor.dtype in (torch.float8_e4m3fn, torch.float8_e5m2)`. -/
def isFloat8 (dtype : Dtype) : Bool := dtype = .float8_e4m3fn ∨ dtype = .float8_e5m2

/-- A parameter.  `vllmParameter` is an instance check for `BasevLLMParameter`. -/
structure Param where
  shape : List Nat
  dtype : Dtype
  vllmParameter : Bool
  outputDim : Option Nat
  hasLoader : Bool

inductive LinearKind where
  | column | mergedColumn | qkv | row
  deriving DecidableEq

structure Linear where
  kind : LinearKind
  outputSizes : List Nat
  outputPartitionSizes : List Nat
  tpRank : Nat
  tpSize : Nat
  hasLoader : Bool

/-- A module, as far as the updater tells modules apart. -/
inductive Module where
  | linear (linear : Linear)
  | gatedDeltaNet
  | routedExperts
  | other

/-- The modules and the parameters of a model, by name.  The weight of a module is the parameter
`weight` under its path. -/
structure Model where
  modules : List (Name × Module)
  params : List (Name × Param)

namespace Model

variable (m : Model)

def param? (name : Name) : Option Param := lookup name m.params

def weightName (modPath : Name) : Name := modPath ++ ".weight".toList

/-- A module that `__init__` enters into `_fp8_modules`. -/
def fp8Module? (modPath : Name) : Option Linear :=
  match lookup modPath m.modules, m.param? (weightName modPath) with
  | some (.linear l), some w => if isFloat8 w.dtype ∧ ¬ w.vllmParameter then some l else none
  | _, _ => none

end Model

/-! ## Handlers of the fused writer -/

/-- `_register_gdn`: a merged projection of a Gated DeltaNet block. -/
def registerGdn (m : Model) : List (Name × Name) :=
  m.modules.filterMap fun (modPath, mod) =>
    match mod, lookup (rpartition modPath).1 m.modules with
    | .linear l, some .gatedDeltaNet =>
      if l.kind = .mergedColumn ∧ (m.param? (Model.weightName modPath)).isSome then
        some (Model.weightName modPath, Model.weightName modPath)
      else none
    | _, _ => none

/-- `_register_sparse_indexer`. -/
def registerSparseIndexer (m : Model) : List (Name × Name) :=
  m.modules.filterMap fun (modPath, mod) =>
    match mod with
    | .linear l =>
      if l.kind = .mergedColumn ∧ ".indexer.wk_weights_proj".toList <:+ modPath ∧
          (m.param? (Model.weightName modPath)).isSome then
        some (Model.weightName modPath, Model.weightName modPath)
      else none
    | _ => none

/-- `_register_moe`: the registry name and the wire name of both expert weights. -/
def registerMoe (m : Model) : List (Name × Name) :=
  m.modules.flatMap fun (modPath, mod) =>
    match mod with
    | .routedExperts =>
      [".w13_weight".toList, ".w2_weight".toList].flatMap fun leaf =>
        let regName := modPath ++ leaf
        if (m.param? regName).isSome then
          [(regName, regName), (replace regName ".routed_experts.".toList ".".toList, regName)]
        else []
    | _ => []

/-- The destinations by wire name; a later registration replaces an earlier one. -/
def handlers (m : Model) : List (Name × Name) :=
  (registerGdn m ++ registerSparseIndexer m ++ registerMoe m).reverse

/-- `_handler_for`, as the destination of the handler. -/
def handlerFor (m : Model) (name : Name) : Option Name :=
  (lookup name (handlers m)).or
    (lookup (replace name "._checkpoint_wrapped_module".toList []) (handlers m))

/-! ## Routing -/

inductive ShardId where
  | q | k | v
  | at (i : Nat)
  deriving DecidableEq

/-- `_STACKED_PARAMS` and `_SHARD_IDS`. -/
def stackedParams : List (Name × Name × ShardId) :=
  [("q_proj".toList, "qkv_proj".toList, .q), ("k_proj".toList, "qkv_proj".toList, .k),
    ("v_proj".toList, "qkv_proj".toList, .v), ("gate_proj".toList, "gate_up_proj".toList, .at 0),
    ("up_proj".toList, "gate_up_proj".toList, .at 1)]

/-- `_SHARD_COUNTS`. -/
def shardCounts : List (Name × Nat) := [("qkv_proj".toList, 3), ("gate_up_proj".toList, 2)]

/-- Shards that a module is loaded from before it is quantized. -/
def shardCount (modPath : Name) : Nat := (lookup (rpartition modPath).2 shardCounts).getD 1

/-- What `feed` does with a tensor. -/
inductive Route where
  | nativeParam (linear : Linear) (param : Param)
  | fp8Module (modPath : Name) (shardId : Option ShardId)
  | nativeScale (linear : Linear) (param : Param)
  | fusedWriter (destination : Name)
  | copyParam (param : Param)
  | quantAndCopy (param : Param)
  | dropped

/-- The branches of `feed` for a name that ends in `.weight`. -/
def weightRoute (m : Model) (sfKey : Name) (tensor : Tensor) : Option Route :=
  (dropSuffix? ".weight".toList sfKey).bind fun modCandidate =>
    let (pre, leaf) := rpartition modCandidate
    match isFloat8 tensor.dtype, m.param? sfKey, m.fp8Module? modCandidate with
    | true, some param, some linear => some (.nativeParam linear param)
    | _, _, whole =>
      let stacked := (lookup leaf stackedParams).bind fun (merged, shardId) =>
        if pre ≠ [] ∧ (m.fp8Module? (pre ++ '.' :: merged)).isSome then
          some (Route.fp8Module (pre ++ '.' :: merged) (some shardId))
        else none
      stacked.or (whole.map fun _ => .fp8Module modCandidate none)

/-- The branch of `feed` for a name that ends in `.weight_scale_inv`. -/
def scaleRoute (m : Model) (sfKey : Name) : Option Route :=
  (dropSuffix? ".weight_scale_inv".toList sfKey).bind fun modCandidate =>
    match m.param? sfKey, m.fp8Module? modCandidate with
    | some param, some linear => some (.nativeScale linear param)
    | _, _ => none

/-- The branch of `feed` that asks the fused writer. -/
def fusedRoute (m : Model) (sfKey : Name) (tensor : Tensor) : Option Route :=
  if isFloat8 tensor.dtype then none else (handlerFor m sfKey).map .fusedWriter

/-- The last branches of `feed`: a parameter under the received name. -/
def paramRoute (m : Model) (sfKey : Name) (tensor : Tensor) : Option Route :=
  (m.param? sfKey).map fun param =>
    if param.shape ≠ tensor.shape ∧ param.dtype = .float8_e4m3fn then .quantAndCopy param
    else .copyParam param

/-- The branch that `feed` takes.  A name that no branch knows has no effect. -/
def route (m : Model) (sfKey : Name) (tensor : Tensor) : Route :=
  (((weightRoute m sfKey tensor).or (scaleRoute m sfKey)).or
    ((fusedRoute m sfKey tensor).or (paramRoute m sfKey tensor))).getD .dropped

/-! ## Copies -/

/-- What vLLM and torch accept: a copy between two shapes, a call of the weight loader under a name into
a tensor of some shape, a quantization, and the loads of the fused writer. -/
structure Ops where
  copy : List Nat → List Nat → Bool
  loader : Name → List Nat → Tensor → Option ShardId → Bool
  quantize : Name → Bool
  fused : Name → Tensor → Bool

inductive Error where
  | zeroDivision
  | index
  | nativeShape (localShape paramShape : List Nat)
  | nativeScaleSplit (shape : List Nat)
  | nativeScaleShape (localShape paramShape : List Nat)
  | raised
  deriving DecidableEq

/-- A call that raises unless it is accepted. -/
def call (accepted : Bool) : Except Error Unit := if accepted then .ok () else .error .raised

/-- `_copy_param`. -/
def copyParamTensor (ops : Ops) (sfKey : Name) (param : Param) (tensor : Tensor) : Except Error Unit :=
  if param.hasLoader ∧ param.shape ≠ tensor.shape then
    call (ops.loader sfKey param.shape tensor none)
  else call (ops.copy param.shape tensor.shape)

/-- `_copy_native_fp8_param`. -/
def copyNativeFp8Param (ops : Ops) (sfKey : Name) (linear : Linear) (param : Param) (tensor : Tensor) :
    Except Error Unit :=
  match linear.hasLoader, tensor.shape, param.shape with
  | true, [rows, columns], [p, q] => do
    let logicalShape ←
      if linear.kind = .row then
        if rows = 0 then .error .zeroDivision else .ok [rows, p * q / rows]
      else if columns = 0 then .error .zeroDivision else .ok [p * q / columns, columns]
    call (ops.loader sfKey logicalShape tensor none)
    if param.shape = logicalShape ∨ param.shape = logicalShape.reverse then .ok ()
    else .error (.nativeShape logicalShape param.shape)
  | _, _, _ => call (ops.copy param.shape tensor.shape)

/-- The rows of the local shards in `_copy_native_fp8_scale`, one shard for every output size. -/
def scaleShards (linear : Linear) (shape : List Nat) (rows total : Nat) :
    Nat → List Nat → Except Error (List Nat)
  | _, [] => .ok []
  | offset, outputSize :: rest => do
    let scaleRows := rows * outputSize / total
    if rows * outputSize % total ≠ 0 ∨ scaleRows % linear.tpSize ≠ 0 then
      .error (.nativeScaleSplit shape)
    else
      let shardSize := scaleRows / linear.tpSize
      call (offset + linear.tpRank * shardSize + shardSize ≤ rows)
      return shardSize :: (← scaleShards linear shape rows total (offset + scaleRows) rest)

/-- `_copy_native_fp8_scale`. -/
def copyNativeFp8Scale (linear : Linear) (param : Param) (tensor : Tensor) : Except Error Unit := do
  let localShape ←
    if linear.kind = .row then
      match tensor.shape with
      | rows :: columns :: rest =>
        if columns % linear.tpSize ≠ 0 then .error (.nativeScaleSplit tensor.shape)
        else do
          let shardSize := columns / linear.tpSize
          call (linear.tpRank * shardSize + shardSize ≤ columns)
          pure (rows :: shardSize :: rest)
      | _ => .error .index
    else
      match tensor.shape with
      | rows :: rest => do
        let outputSizes := if linear.outputPartitionSizes = [] then [1] else linear.outputPartitionSizes
        if outputSizes.sum = 0 then .error .zeroDivision
        else do
          let shards ← scaleShards linear tensor.shape rows outputSizes.sum 0 outputSizes
          pure (shards.sum :: rest)
      | _ => .error .index
  if param.shape = localShape ∨ param.shape = localShape.reverse then .ok ()
  else .error (.nativeScaleShape localShape param.shape)

def scaleName (sfKey : Name) : Name := replace sfKey ".weight".toList ".weight_scale".toList

/-- `_quant_and_copy`. -/
def quantAndCopy (m : Model) (ops : Ops) (sfKey : Name) (param : Param) (tensor : Tensor) :
    Except Error Unit := do
  call (ops.quantize sfKey)
  if param.shape = tensor.shape.reverse ∧ param.shape.length = 2 then .ok ()
  else call (ops.copy param.shape tensor.shape)
  match m.param? (scaleName sfKey) with
  | some scale => call (ops.copy scale.shape [1])
  | none => .ok ()

/-! ## The updater -/

/-- A received tensor that was loaded into a buffer, by its position in the stream. -/
structure Load where
  index : Nat
  shardId : Option ShardId

/-- A buffer of an FP8 module, with the shards it waits for and what was loaded into it. -/
structure Buffer where
  shardsLeft : Nat
  loads : List Load

/-- The buffers of the updater, the loads that each module was last quantized from, and every write of a
received tensor into a parameter. -/
structure Updater where
  bufs : Dict Name Buffer
  quantized : Dict Name (List Load)
  written : List (Nat × Name)

def Updater.init : Updater := ⟨.empty, .empty, []⟩

/-- `_ensure_buf`. -/
def Updater.ensureBuf (u : Updater) (modPath : Name) : Buffer :=
  (u.bufs.get? modPath).getD ⟨shardCount modPath, []⟩

/-- `_feed_fp8_module`, with `_flush_module`.  The loader sees the buffer in the layout of the
checkpoint, which is the transposed weight. -/
def feedFp8Module (m : Model) (ops : Ops) (modPath : Name) (index : Nat) (tensor : Tensor)
    (shardId : Option ShardId) (u : Updater) : Except Error Updater := do
  let weightShape := ((m.param? (Model.weightName modPath)).map Param.shape).getD []
  let bufShape := if weightShape.length = 2 then weightShape.reverse else weightShape
  call (ops.loader modPath bufShape tensor shardId)
  let buf := u.ensureBuf modPath
  let loads := buf.loads ++ [⟨index, shardId⟩]
  if buf.shardsLeft - 1 = 0 then
    call (ops.quantize modPath)
    return { bufs := u.bufs.erase modPath, quantized := u.quantized.set modPath loads,
             written := u.written ++ loads.map fun l => (l.index, Model.weightName modPath) }
  else return { u with bufs := u.bufs.set modPath ⟨buf.shardsLeft - 1, loads⟩ }

/-- The parameters that a route writes at once. -/
def destinations (m : Model) (sfKey : Name) : Route → List Name
  | .nativeParam .. | .nativeScale .. | .copyParam _ => [sfKey]
  | .fusedWriter destination => [destination]
  | .quantAndCopy _ =>
    if (m.param? (scaleName sfKey)).isSome then [sfKey, scaleName sfKey] else [sfKey]
  | .fp8Module .. | .dropped => []

/-- The tensor was written into parameters. -/
def Updater.wrote (u : Updater) (index : Nat) (names : List Name) : Updater :=
  { u with written := u.written ++ names.map fun name => (index, name) }

/-- The copies of a route that does not go through a buffer. -/
def direct (m : Model) (ops : Ops) (sfKey : Name) (tensor : Tensor) : Route → Except Error Unit
  | .nativeParam linear param => copyNativeFp8Param ops sfKey linear param tensor
  | .nativeScale linear param => copyNativeFp8Scale linear param tensor
  | .fusedWriter destination => call (ops.fused destination tensor)
  | .copyParam param => copyParamTensor ops sfKey param tensor
  | .quantAndCopy param => quantAndCopy m ops sfKey param tensor
  | .fp8Module .. | .dropped => .ok ()

/-- `feed`. -/
def feed (m : Model) (ops : Ops) (u : Updater) (index : Nat) (sfKey : Name) (tensor : Tensor) :
    Except Error Updater :=
  match route m sfKey tensor with
  | .fp8Module modPath shardId => feedFp8Module m ops modPath index tensor shardId u
  | r => do
    direct m ops sfKey tensor r
    return u.wrote index (destinations m sfKey r)

structure SyncFailed where
  name : Name
  tensor : Tensor
  cause : Error

/-- The loop of `_load_fp8`, over the received tensors from a position on. -/
def feedAll (m : Model) (ops : Ops) : Updater → List (Nat × Name × Tensor) → Except SyncFailed Updater
  | u, [] => .ok u
  | u, (index, name, tensor) :: rest =>
    match feed m ops u index name tensor with
    | .ok u' => feedAll m ops u' rest
    | .error cause => .error ⟨name, tensor, cause⟩

/-- A received stream with the position of every tensor. -/
def numbered (stream : List (Name × Tensor)) : List (Nat × Name × Tensor) :=
  stream.zipIdx.map fun x => (x.2, x.1)

/-- `_load_fp8`: the updater after the stream, and `updater.pending`, which only makes a
warning. -/
def loadFp8 (m : Model) (ops : Ops) (stream : List (Name × Tensor)) :
    Except SyncFailed (Updater × Nat) := do
  let u ← feedAll m ops .init (numbered stream)
  return (u, u.bufs.keys.length)

/-! ## Where a route leads -/

section Routes

variable {m : Model} {sfKey name : Name} {tensor : Tensor} {r : Route}

/-- The route writes into a parameter of the model, at once or through the buffer of an FP8 module. -/
def Lands (m : Model) (sfKey : Name) : Route → Prop
  | .fp8Module modPath _ => (m.param? (Model.weightName modPath)).isSome
  | .dropped => False
  | r => ∃ name ∈ destinations m sfKey r, (m.param? name).isSome

theorem param_of_fp8Module? {modPath : Name} (h : (m.fp8Module? modPath).isSome) :
    (m.param? (Model.weightName modPath)).isSome := by
  unfold Model.fp8Module? at h
  split at h
  · rename_i hw
    rw [hw]
    rfl
  · cases h

theorem weightRoute_lands (h : weightRoute m sfKey tensor = some r) : Lands m sfKey r := by
  obtain ⟨modCandidate, -, h⟩ := Option.bind_eq_some_iff.mp h
  dsimp only at h
  split at h
  · -- an FP8 tensor for a parameter of the same name
    rename_i hparam _
    cases h
    exact ⟨sfKey, mem_singleton_self _, by rw [hparam]; rfl⟩
  · rcases Option.or_eq_some_iff.mp h with h | ⟨-, h⟩
    · obtain ⟨entry, -, h⟩ := Option.bind_eq_some_iff.mp h
      split at h
      · rename_i hmod
        cases h
        exact param_of_fp8Module? hmod.2
      · cases h
    · obtain ⟨linear, hmod, rfl⟩ := Option.map_eq_some_iff.mp h
      exact param_of_fp8Module? (by rw [hmod]; rfl)

theorem scaleRoute_lands (h : scaleRoute m sfKey = some r) : Lands m sfKey r := by
  obtain ⟨modCandidate, -, h⟩ := Option.bind_eq_some_iff.mp h
  split at h
  · rename_i hparam _
    cases h
    exact ⟨sfKey, mem_singleton_self _, by rw [hparam]; rfl⟩
  · cases h

theorem param_of_mem_handlers {entry : Name × Name} (h : entry ∈ handlers m) :
    (m.param? entry.2).isSome := by
  rw [handlers, mem_reverse, mem_append, mem_append] at h
  rcases h with (h | h) | h
  · obtain ⟨⟨modPath, mod⟩, -, h⟩ := mem_filterMap.mp h
    dsimp only at h
    split at h
    · split_ifs at h with hparam
      cases h
      exact hparam.2
    · cases h
  · obtain ⟨⟨modPath, mod⟩, -, h⟩ := mem_filterMap.mp h
    dsimp only at h
    split at h
    · split_ifs at h with hparam
      cases h
      exact hparam.2.2
    · cases h
  · obtain ⟨⟨modPath, mod⟩, -, h⟩ := mem_flatMap.mp h
    dsimp only at h
    split at h
    · obtain ⟨leaf, -, h⟩ := mem_flatMap.mp h
      split_ifs at h with hparam
      · rcases mem_pair.mp h with rfl | rfl
        · exact hparam
        · exact hparam
      · cases h
    · cases h

theorem mem_of_lookup {α β : Type} [DecidableEq α] {k : α} {v : β} {l : List (α × β)}
    (h : lookup k l = some v) : (k, v) ∈ l := by
  induction l with
  | nil => cases h
  | cons p rest ih =>
    rw [lookup] at h
    split_ifs at h with hp
    · cases h
      rw [← hp]
      exact mem_cons_self
    · exact mem_cons_of_mem _ (ih h)

theorem fusedRoute_lands (h : fusedRoute m sfKey tensor = some r) : Lands m sfKey r := by
  rw [fusedRoute] at h
  split_ifs at h
  obtain ⟨destination, hhandler, rfl⟩ := Option.map_eq_some_iff.mp h
  refine ⟨destination, mem_singleton_self _, ?_⟩
  rcases Option.or_eq_some_iff.mp hhandler with hmem | ⟨-, hmem⟩
  · exact param_of_mem_handlers (mem_of_lookup hmem)
  · exact param_of_mem_handlers (mem_of_lookup hmem)

theorem paramRoute_lands (h : paramRoute m sfKey tensor = some r) : Lands m sfKey r := by
  obtain ⟨param, hparam, rfl⟩ := Option.map_eq_some_iff.mp h
  have hsome : (m.param? sfKey).isSome := by rw [hparam]; rfl
  split_ifs
  · refine ⟨sfKey, ?_, hsome⟩
    rw [destinations]
    split_ifs
    · exact mem_cons_self
    · exact mem_cons_self
  · exact ⟨sfKey, mem_singleton_self _, hsome⟩

theorem route_lands (h : route m sfKey tensor ≠ .dropped) : Lands m sfKey (route m sfKey tensor) := by
  rw [route] at h ⊢
  cases hroute : ((weightRoute m sfKey tensor).or (scaleRoute m sfKey)).or
      ((fusedRoute m sfKey tensor).or (paramRoute m sfKey tensor)) with
  | none => exact absurd (by rw [hroute]; rfl) h
  | some r =>
    rw [Option.getD_some]
    rcases Option.or_eq_some_iff.mp hroute with hroute | ⟨-, hroute⟩
    · rcases Option.or_eq_some_iff.mp hroute with hroute | ⟨-, hroute⟩
      · exact weightRoute_lands hroute
      · exact scaleRoute_lands hroute
    · rcases Option.or_eq_some_iff.mp hroute with hroute | ⟨-, hroute⟩
      · exact fusedRoute_lands hroute
      · exact paramRoute_lands hroute

end Routes

/-! ## Batches of a fixed length -/

section Cuts

variable {α : Type} {k : Nat} {items pending : List α} {batches : List (List α)}

/-- A list as batches of length `k`, followed by fewer items that are pending. -/
structure Cut (k : Nat) (items : List α) (batches : List (List α)) (pending : List α) : Prop where
  eq : items = batches.flatten ++ pending
  length : ∀ batch ∈ batches, batch.length = k
  lt : pending.length < k

theorem Cut.nil (hk : 0 < k) : Cut k ([] : List α) [] [] :=
  ⟨rfl, fun _ hbatch => absurd hbatch not_mem_nil, hk⟩

theorem Cut.keep (h : Cut k items batches pending) {x : α} (hlt : pending.length + 1 < k) :
    Cut k (items ++ [x]) batches (pending ++ [x]) where
  eq := by rw [h.eq, append_assoc]
  length := h.length
  lt := by simpa using hlt

theorem Cut.flush (h : Cut k items batches pending) {x : α} (hlast : pending.length + 1 = k) :
    Cut k (items ++ [x]) (batches ++ [pending ++ [x]]) [] where
  eq := by simp [h.eq]
  length := by
    intro batch hbatch
    rcases mem_append.mp hbatch with hbatch | hbatch
    · exact h.length batch hbatch
    · rw [mem_singleton.mp hbatch, length_append, length_singleton, hlast]
  lt := by
    rw [length_nil]
    omega

theorem Cut.pending_eq_nil_iff (h : Cut k items batches pending) : pending = [] ↔ k ∣ items.length := by
  have hbatches : batches.flatten.length = batches.length * k := by
    rw [List.length_flatten, map_congr_left h.length, map_const', sum_replicate, smul_eq_mul]
  rw [h.eq, length_append, hbatches, Nat.dvd_add_right (Dvd.intro_left _ rfl)]
  constructor
  · rintro rfl
    exact dvd_zero k
  · intro hdvd
    exact length_eq_zero_iff.mp (Nat.eq_zero_of_dvd_of_lt hdvd h.lt)

theorem Cut.getLast? (h : Cut k items batches []) (hne : items ≠ []) :
    batches.getLast? = some (items.drop (items.length - k)) := by
  have hitems := h.eq
  rw [append_nil] at hitems
  rcases eq_nil_or_concat batches with rfl | ⟨front, last, rfl⟩
  · exact absurd hitems hne
  · have hlast : last.length = k := h.length last (by simp)
    rw [concat_eq_append, getLast?_concat, hitems, concat_eq_append, flatten_append,
      flatten_singleton, ← hlast, length_append, Nat.add_sub_cancel, drop_left]

end Cuts

/-! ## What the updater holds -/

section Updates

variable {m : Model} {ops : Ops} {u u' : Updater} {items : List (Nat × Name × Tensor)}

/-- The load of a received tensor into the buffer of a module. -/
def loadOf (m : Model) (modPath : Name) (x : Nat × Name × Tensor) : Option Load :=
  match route m x.2.1 x.2.2 with
  | .fp8Module path shardId => if path = modPath then some ⟨x.1, shardId⟩ else none
  | _ => none

/-- The loads into the buffers of a module. -/
def feeds (m : Model) (modPath : Name) (items : List (Nat × Name × Tensor)) : List Load :=
  items.filterMap (loadOf m modPath)

/-- The writes that do not go through a buffer. -/
def directWrites (m : Model) (x : Nat × Name × Tensor) : List (Nat × Name) :=
  (destinations m x.2.1 (route m x.2.1 x.2.2)).map fun name => (x.1, name)

/-- Batches of loads have been flushed, the rest is in the buffers. -/
structure Fed (m : Model) (items : List (Nat × Name × Tensor)) (u : Updater)
    (batches : Name → List (List Load)) (pending : Name → List Load) : Prop where
  cut : ∀ p, Cut (shardCount p) (feeds m p items) (batches p) (pending p)
  bufs : ∀ p, u.bufs.get? p =
    if pending p = [] then none else some ⟨shardCount p - (pending p).length, pending p⟩
  quantized : ∀ p, u.quantized.get? p = (batches p).getLast?
  written : ∀ i name, (i, name) ∈ u.written ↔ (i, name) ∈ items.flatMap (directWrites m) ∨
    ∃ p, name = Model.weightName p ∧ ∃ l ∈ (batches p).flatten, l.index = i

theorem shardCount_pos (modPath : Name) : 0 < shardCount modPath := by
  rw [shardCount]
  cases hcount : lookup (rpartition modPath).2 shardCounts with
  | none => exact one_pos
  | some count =>
    rcases mem_pair.mp (mem_of_lookup hcount) with heq | heq
    · rw [(Prod.mk.inj heq).2]
      decide
    · rw [(Prod.mk.inj heq).2]
      decide

theorem bind_call {α : Type} {b : Bool} {f : Except Error α} {x : α}
    (h : (call b >>= fun _ => f) = .ok x) : f = .ok x := by
  cases b
  · cases h
  · exact h

theorem feedFp8Module_cases {modPath : Name} {index : Nat} {tensor : Tensor} {shardId : Option ShardId}
    (h : feedFp8Module m ops modPath index tensor shardId u = .ok u') :
    ((u.ensureBuf modPath).shardsLeft - 1 = 0 ∧
      u' = { bufs := u.bufs.erase modPath,
             quantized := u.quantized.set modPath ((u.ensureBuf modPath).loads ++ [⟨index, shardId⟩]),
             written := u.written ++ ((u.ensureBuf modPath).loads ++ [(⟨index, shardId⟩ : Load)]).map
               fun l => (l.index, Model.weightName modPath) }) ∨
    ((u.ensureBuf modPath).shardsLeft - 1 ≠ 0 ∧
      u' = { u with bufs := u.bufs.set modPath ⟨(u.ensureBuf modPath).shardsLeft - 1,
        (u.ensureBuf modPath).loads ++ [⟨index, shardId⟩]⟩ }) := by
  have h := bind_call h
  dsimp only at h
  split_ifs at h with hleft
  · exact .inl ⟨hleft, (Except.ok.inj (bind_call h)).symm⟩
  · exact .inr ⟨hleft, (Except.ok.inj h).symm⟩

/-- What one tensor does: a load into a buffer, or the writes of its route. -/
theorem feed_cases {index : Nat} {sfKey : Name} {tensor : Tensor}
    (h : feed m ops u index sfKey tensor = .ok u') :
    (∃ modPath shardId, route m sfKey tensor = .fp8Module modPath shardId ∧
      feedFp8Module m ops modPath index tensor shardId u = .ok u') ∨
    ((∀ modPath shardId, route m sfKey tensor ≠ .fp8Module modPath shardId) ∧
      u' = u.wrote index (destinations m sfKey (route m sfKey tensor))) := by
  rw [feed] at h
  split at h
  · rename_i modPath shardId hroute
    exact .inl ⟨modPath, shardId, hroute, h⟩
  · rename_i hroute
    refine .inr ⟨fun modPath shardId heq => hroute modPath shardId heq, ?_⟩
    obtain ⟨_, -, h⟩ := Results.bind_eq_ok.mp h
    exact (Except.ok.inj h).symm

theorem fed_init : Fed m [] .init (fun _ => []) (fun _ => []) where
  cut p := Cut.nil (shardCount_pos p)
  bufs _ := rfl
  quantized _ := rfl
  written i name := by simp [Updater.init]

variable {batches : Name → List (List Load)} {pending : Name → List Load} {x : Nat × Name × Tensor}

theorem Fed.ensureBuf (h : Fed m items u batches pending) (p : Name) :
    u.ensureBuf p = ⟨shardCount p - (pending p).length, pending p⟩ := by
  rw [Updater.ensureBuf, h.bufs]
  split_ifs with hpending
  · rw [hpending]
    rfl
  · rfl

variable {p : Name}

theorem feeds_snoc_of_ne (hload : loadOf m p x = none) :
    feeds m p (items ++ [x]) = feeds m p items := by
  rw [feeds, filterMap_append, filterMap_cons_none hload, filterMap_nil, append_nil]
  rfl

variable {l : Load}

theorem feeds_snoc_of_load (hload : loadOf m p x = some l) :
    feeds m p (items ++ [x]) = feeds m p items ++ [l] := by
  rw [feeds, filterMap_append, filterMap_cons_some hload, filterMap_nil]
  rfl

section

variable (h : Fed m items u batches pending)
include h

/-- A load that completes a batch flushes it. -/
theorem Fed.flush (hl : loadOf m p x = some l)
    (hother : ∀ q ≠ p, loadOf m q x = none) (hdirect : directWrites m x = [])
    (hlast : (pending p).length + 1 = shardCount p) :
    Fed m (items ++ [x])
      { bufs := u.bufs.erase p, quantized := u.quantized.set p (pending p ++ [l]),
        written := u.written ++ (pending p ++ [l]).map fun l => (l.index, Model.weightName p) }
      (Function.update batches p (batches p ++ [pending p ++ [l]])) (Function.update pending p []) where
  cut q := by
    by_cases hq : q = p
    · subst hq
      rw [feeds_snoc_of_load hl, update_self, update_self]
      exact (h.cut q).flush hlast
    · rw [feeds_snoc_of_ne (hother q hq), update_of_ne hq, update_of_ne hq]
      exact h.cut q
  bufs q := by
    rw [Dict.get?_erase]
    by_cases hq : q = p
    · subst hq
      rw [if_pos rfl, update_self, if_pos rfl]
    · rw [if_neg hq, h.bufs, update_of_ne hq]
  quantized q := by
    rw [Dict.get?_set]
    by_cases hq : q = p
    · subst hq
      rw [if_pos rfl, update_self, getLast?_concat]
    · rw [if_neg hq, h.quantized, update_of_ne hq]
  written i name := by
    rw [mem_append, h.written, flatMap_append, flatMap_singleton, hdirect, append_nil, or_assoc]
    refine or_congr_right ?_
    constructor
    · rintro (⟨q, hname, l', hl', hindex⟩ | hmem)
      · refine ⟨q, hname, l', ?_, hindex⟩
        by_cases hq : q = p
        · subst hq
          rw [update_self, flatten_append]
          exact mem_append_left _ hl'
        · rwa [update_of_ne hq]
      · obtain ⟨l', hl', heq⟩ := mem_map.mp hmem
        cases heq
        refine ⟨p, rfl, l', ?_, rfl⟩
        rw [update_self, flatten_append, flatten_singleton]
        exact mem_append_right _ hl'
    · rintro ⟨q, hname, l', hl', hindex⟩
      by_cases hq : q = p
      · subst hq
        rw [update_self, flatten_append, flatten_singleton] at hl'
        rcases mem_append.mp hl' with hl' | hl'
        · exact .inl ⟨q, hname, l', hl', hindex⟩
        · exact .inr (mem_map.mpr ⟨l', hl', by rw [hindex, hname]⟩)
      · rw [update_of_ne hq] at hl'
        exact .inl ⟨q, hname, l', hl', hindex⟩

theorem Fed.keep (hl : loadOf m p x = some l)
    (hother : ∀ q ≠ p, loadOf m q x = none) (hdirect : directWrites m x = [])
    (hlt : (pending p).length + 1 < shardCount p) :
    Fed m (items ++ [x])
      { u with bufs := u.bufs.set p ⟨shardCount p - (pending p).length - 1, pending p ++ [l]⟩ }
      batches (Function.update pending p (pending p ++ [l])) where
  cut q := by
    by_cases hq : q = p
    · subst hq
      rw [feeds_snoc_of_load hl, update_self]
      exact (h.cut q).keep hlt
    · rw [feeds_snoc_of_ne (hother q hq), update_of_ne hq]
      exact h.cut q
  bufs q := by
    rw [Dict.get?_set]
    by_cases hq : q = p
    · subst hq
      rw [if_pos rfl, update_self, if_neg (by simp), length_append, length_singleton, Nat.sub_sub]
    · rw [if_neg hq, h.bufs, update_of_ne hq]
  quantized := h.quantized
  written i name := by
    rw [h.written, flatMap_append, flatMap_singleton, hdirect, append_nil]

theorem Fed.wrote (hroute : ∀ p shardId, route m x.2.1 x.2.2 ≠ .fp8Module p shardId) :
    Fed m (items ++ [x]) (u.wrote x.1 (destinations m x.2.1 (route m x.2.1 x.2.2))) batches pending where
  cut p := by
    have hload : loadOf m p x = none := by
      rw [loadOf]
      split
      · rename_i path shardId heq
        exact absurd heq (hroute path shardId)
      · rfl
    rw [feeds_snoc_of_ne hload]
    exact h.cut p
  bufs := h.bufs
  quantized := h.quantized
  written i name := by
    rw [Updater.wrote, mem_append, h.written, flatMap_append, flatMap_singleton,
      mem_append, or_right_comm]
    rfl

theorem fed_feed (hfeed : feed m ops u x.1 x.2.1 x.2.2 = .ok u') :
    ∃ batches' pending', Fed m (items ++ [x]) u' batches' pending' := by
  rcases feed_cases hfeed with ⟨p, shardId, hroute, hfeed⟩ | ⟨hroute, rfl⟩
  · have hl : loadOf m p x = some ⟨x.1, shardId⟩ := by rw [loadOf, hroute]; exact if_pos rfl
    have hother : ∀ q ≠ p, loadOf m q x = none := by
      intro q hq
      rw [loadOf, hroute]
      exact if_neg (Ne.symm hq)
    have hdirect : directWrites m x = [] := by rw [directWrites, hroute]; rfl
    have hlt := (h.cut p).lt
    rcases feedFp8Module_cases hfeed with ⟨hleft, rfl⟩ | ⟨hleft, rfl⟩
    · rw [h.ensureBuf] at hleft ⊢
      dsimp only at hleft
      exact ⟨_, _, h.flush hl hother hdirect (by omega)⟩
    · rw [h.ensureBuf] at hleft ⊢
      dsimp only at hleft
      exact ⟨_, _, h.keep hl hother hdirect (by omega)⟩
  · exact ⟨_, _, h.wrote hroute⟩

theorem fed_feedAll {rest : List (Nat × Name × Tensor)} (hfeed : feedAll m ops u rest = .ok u') :
    ∃ batches' pending', Fed m (items ++ rest) u' batches' pending' := by
  induction rest generalizing items u batches pending with
  | nil =>
    cases hfeed
    rw [append_nil]
    exact ⟨_, _, h⟩
  | cons x rest ih =>
    rw [feedAll] at hfeed
    split at hfeed
    · rename_i hx
      obtain ⟨batches₁, pending₁, h₁⟩ := fed_feed h hx
      obtain ⟨batches₂, pending₂, h₂⟩ := ih h₁ hfeed
      exact ⟨batches₂, pending₂, by rwa [append_assoc] at h₂⟩
    · cases hfeed

end

end Updates

/-! ## Complete syncs -/

section Syncs

variable {m : Model} {ops : Ops} {u : Updater} {stream : List (Name × Tensor)}

/-- The shards of a module, by the names of their projections. -/
def shards (modPath : Name) : List ShardId :=
  stackedParams.filterMap fun e => if e.2.1 = (rpartition modPath).2 then some e.2.2 else none

/-- Every shard of the module is among the loads, on its own or in a load of the fused tensor. -/
def Covers (modPath : Name) (loads : List Load) : Prop :=
  ∀ shardId ∈ shards modPath, ∃ l ∈ loads, l.shardId = none ∨ l.shardId = some shardId

/-- Every received tensor has been written into a parameter, and every module that was loaded from the
stream has last been quantized from a buffer with all its shards. -/
structure Complete (m : Model) (stream : List (Name × Tensor)) (u : Updater) : Prop where
  written : ∀ i < stream.length, ∃ name, (m.param? name).isSome ∧ (i, name) ∈ u.written
  quantized : ∀ p, feeds m p (numbered stream) ≠ [] →
    ∃ loads, u.quantized.get? p = some loads ∧ Covers p loads

/-- The condition on a stream: no tensor is dropped, every module gets a multiple of its shard count, and
the last of them are all its shards. -/
structure Accounted (m : Model) (stream : List (Name × Tensor)) : Prop where
  known : ∀ x ∈ stream, route m x.1 x.2 ≠ .dropped
  whole : ∀ p, shardCount p ∣ (feeds m p (numbered stream)).length
  shards : ∀ p, feeds m p (numbered stream) ≠ [] →
    Covers p ((feeds m p (numbered stream)).drop ((feeds m p (numbered stream)).length - shardCount p))

theorem mem_numbered {i : Nat} {x : Name × Tensor} : (i, x) ∈ numbered stream ↔ stream[i]? = some x := by
  rw [numbered, mem_map]
  constructor
  · rintro ⟨⟨y, j⟩, hmem, heq⟩
    cases heq
    exact mk_mem_zipIdx_iff_getElem?.mp hmem
  · intro hx
    exact ⟨(x, i), mk_mem_zipIdx_iff_getElem?.mpr hx, rfl⟩

variable {l : Load}

theorem mem_feeds {p : Name} : l ∈ feeds m p (numbered stream) ↔
    ∃ x, stream[l.index]? = some x ∧ route m x.1 x.2 = .fp8Module p l.shardId := by
  rw [feeds, mem_filterMap]
  constructor
  · rintro ⟨⟨i, x⟩, hmem, hload⟩
    rw [loadOf] at hload
    split at hload
    · rename_i path shardId hroute
      split_ifs at hload with hpath
      cases hload
      exact ⟨x, mem_numbered.mp hmem, hpath ▸ hroute⟩
    · cases hload
  · rintro ⟨x, hx, hroute⟩
    exact ⟨(l.index, x), mem_numbered.mpr hx, by rw [loadOf, hroute]; exact if_pos rfl⟩

theorem index_of_loadOf {p : Name} {x : Nat × Name × Tensor} (h : loadOf m p x = some l) :
    l.index = x.1 := by
  rw [loadOf] at h
  split at h
  · split_ifs at h
    cases h
    rfl
  · cases h

theorem nodup_feeds (p : Name) : (feeds m p (numbered stream)).Nodup := by
  have hindex : ((numbered stream).map Prod.fst).Nodup := by
    have hnodup : (stream.zipIdx.map Prod.snd).Nodup := by
      rw [zipIdx_map_snd]
      exact nodup_range'
    rwa [numbered, map_map]
  refine (pairwise_map.mp hindex).filterMap (loadOf m p) ?_
  intro x y hxy l hl l' hl' heq
  exact hxy (by rw [← index_of_loadOf hl, ← index_of_loadOf hl', heq])

theorem mem_directWrites {i : Nat} {name : Name} :
    (i, name) ∈ (numbered stream).flatMap (directWrites m) ↔
      ∃ x, stream[i]? = some x ∧ name ∈ destinations m x.1 (route m x.1 x.2) := by
  rw [mem_flatMap]
  constructor
  · rintro ⟨⟨j, x⟩, hmem, hwrite⟩
    obtain ⟨name', hname, heq⟩ := mem_map.mp hwrite
    cases heq
    exact ⟨x, mem_numbered.mp hmem, hname⟩
  · rintro ⟨x, hx, hname⟩
    exact ⟨(i, x), mem_numbered.mpr hx, mem_map_of_mem hname⟩

/-- A tensor that is loaded into a buffer is written when its batch is, and not before. -/
theorem Fed.written_of_load {batches : Name → List (List Load)} {pending : Name → List Load}
    (h : Fed m (numbered stream) u batches pending) {p name : Name}
    (hl : l ∈ feeds m p (numbered stream)) (hwritten : (l.index, name) ∈ u.written) :
    l ∈ (batches p).flatten := by
  obtain ⟨x, hx, hroute⟩ := mem_feeds.mp hl
  rcases (h.written _ _).mp hwritten with hdirect | ⟨q, -, l', hl', hindex⟩
  · obtain ⟨x', hx', hname⟩ := mem_directWrites.mp hdirect
    rw [hx] at hx'
    cases hx'
    rw [hroute] at hname
    cases hname
  · have hfeed : l' ∈ feeds m q (numbered stream) := by
      rw [(h.cut q).eq]
      exact mem_append_left _ hl'
    obtain ⟨x', hx', hroute'⟩ := mem_feeds.mp hfeed
    rw [hindex, hx] at hx'
    cases hx'
    rw [hroute] at hroute'
    obtain ⟨rfl, hshard⟩ := Route.fp8Module.inj hroute'
    have heq : l = l' := by
      cases l
      cases l'
      simp_all
    rwa [heq]

/-- Nothing is pending exactly if every tensor of the module that was received has been written. -/
theorem Fed.complete_iff {batches : Name → List (List Load)} {pending : Name → List Load}
    (h : Fed m (numbered stream) u batches pending) : Complete m stream u ↔ Accounted m stream := by
  have hquantized : ∀ p, pending p = [] → feeds m p (numbered stream) ≠ [] → u.quantized.get? p =
      some ((feeds m p (numbered stream)).drop ((feeds m p (numbered stream)).length - shardCount p)) := by
    intro p hpending hne
    have hcut := h.cut p
    rw [hpending] at hcut
    rw [h.quantized, hcut.getLast? hne]
  constructor
  · intro hcomplete
    have hpending : ∀ p, pending p = [] := by
      intro p
      refine eq_nil_iff_forall_not_mem.mpr fun l hl => ?_
      have hfeed : l ∈ feeds m p (numbered stream) := by
        rw [(h.cut p).eq]
        exact mem_append_right _ hl
      obtain ⟨x, hx, -⟩ := mem_feeds.mp hfeed
      obtain ⟨name, -, hwritten⟩ := hcomplete.written l.index (List.getElem?_eq_some_iff.mp hx).1
      have hflushed := h.written_of_load hfeed hwritten
      have hnodup := @nodup_feeds m stream p
      rw [(h.cut p).eq] at hnodup
      exact disjoint_of_nodup_append hnodup hflushed hl
    refine ⟨fun x hx hdropped => ?_, fun p => (h.cut p).pending_eq_nil_iff.mp (hpending p), fun p hne => ?_⟩
    · obtain ⟨i, hi⟩ := mem_iff_getElem?.mp hx
      obtain ⟨name, -, hwritten⟩ := hcomplete.written i (List.getElem?_eq_some_iff.mp hi).1
      rcases (h.written _ _).mp hwritten with hdirect | ⟨q, -, l, hl, rfl⟩
      · obtain ⟨x', hx', hname⟩ := mem_directWrites.mp hdirect
        rw [hi] at hx'
        cases hx'
        rw [hdropped] at hname
        cases hname
      · have hfeed : l ∈ feeds m q (numbered stream) := by
          rw [(h.cut q).eq]
          exact mem_append_left _ hl
        obtain ⟨x', hx', hroute⟩ := mem_feeds.mp hfeed
        rw [hi] at hx'
        cases hx'
        rw [hdropped] at hroute
        cases hroute
    · obtain ⟨loads, hloads, hcovers⟩ := hcomplete.quantized p hne
      rw [hquantized p (hpending p) hne] at hloads
      cases hloads
      exact hcovers
  · intro haccounted
    have hpending : ∀ p, pending p = [] := fun p => (h.cut p).pending_eq_nil_iff.mpr (haccounted.whole p)
    refine ⟨fun i hi => ?_, fun p hne => ⟨_, hquantized p (hpending p) hne, haccounted.shards p hne⟩⟩
    have hx : stream[i]? = some stream[i] := getElem?_eq_getElem hi
    have hlands := route_lands (haccounted.known stream[i] (getElem_mem hi))
    cases hroute : route m stream[i].1 stream[i].2 with
    | fp8Module p shardId =>
      rw [hroute] at hlands
      have hfeed : (⟨i, shardId⟩ : Load) ∈ feeds m p (numbered stream) := mem_feeds.mpr ⟨_, hx, hroute⟩
      rw [(h.cut p).eq, hpending, append_nil] at hfeed
      exact ⟨_, hlands, (h.written _ _).mpr (.inr ⟨p, rfl, _, hfeed, rfl⟩)⟩
    | dropped => exact absurd hroute (haccounted.known stream[i] (getElem_mem hi))
    | _ =>
      rw [hroute] at hlands
      obtain ⟨name, hname, hparam⟩ := hlands
      exact ⟨name, hparam, (h.written _ _).mpr (.inl (mem_directWrites.mpr ⟨_, hx, by rwa [hroute]⟩))⟩

/-- A sync that does not raise has written everything exactly if the stream is accounted for. -/
theorem loadFp8_complete_iff {n : Nat} (h : loadFp8 m ops stream = .ok (u, n)) :
    Complete m stream u ↔ Accounted m stream := by
  obtain ⟨u', hfeed, heq⟩ := Results.bind_eq_ok.mp h
  cases Except.ok.inj heq
  obtain ⟨batches, pending, hfed⟩ := fed_feedAll fed_init hfeed
  exact hfed.complete_iff

end Syncs

end ArcticPlatform.WeightLoading
