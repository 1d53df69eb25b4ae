import ArcticPlatform.Library.StridedViews

/-!
# The ranks of a Ulysses job

`initialize_model_parallel` arranges the ranks in an array with six axes and reads
eight kinds of groups off its transposes.  `get_layers_start_end_indices` finds the
pipeline stage of a rank by a quotient of its own.  How many layers a stage gets is
decided by `get_pp_indices`, which is a parameter here; the ranges it gives to the
stages follow each other.

Main results:

- Theorem `layout_groups`: the groups read off one order of the axes.
- Theorem `rank_layout_iff`: the groups always fit the array, and the stages fit the
  pipeline groups exactly without prefill context parallelism or without a pipeline.
-/

namespace ArcticPlatform.Ulysses

open Chunks Meshes StridedViews List

/-! ## The array of ranks -/

/-- The sizes that the configuration gives. -/
structure ParallelSizes where
  dp : Nat
  pp : Nat
  pcp : Nat
  sp : Nat
  tp : Nat
  pos : 0 < dp ∧ 0 < pp ∧ 0 < pcp ∧ 0 < sp ∧ 0 < tp

/-- The axes of the array of ranks. -/
inductive Dim where
  | externalDp
  | dp
  | pp
  | pcp
  | sp
  | tp
  deriving DecidableEq

/-- `ExternalDP x DP x PP x PCP x SP x TP`. -/
def dims : List Dim := [.externalDp, .dp, .pp, .pcp, .sp, .tp]

theorem mem_dims (d : Dim) : d ∈ dims := by
  cases d <;> decide

namespace ParallelSizes

variable (s : ParallelSizes)

/-- The ranks of one engine, `world_size` of `_get_parallel_sizes`. -/
def engineSize : Nat := s.tp * s.pp * s.pcp * s.sp

/-- The axis of the array, `external` being the size that `reshape` works out. -/
def axis (external : Nat) : Dim → Axis
  | .externalDp => ⟨external, [s.dp, s.pp, s.pcp, s.sp, s.tp].prod⟩
  | .dp => ⟨s.dp, [s.pp, s.pcp, s.sp, s.tp].prod⟩
  | .pp => ⟨s.pp, [s.pcp, s.sp, s.tp].prod⟩
  | .pcp => ⟨s.pcp, [s.sp, s.tp].prod⟩
  | .sp => ⟨s.sp, [s.tp].prod⟩
  | .tp => ⟨s.tp, 1⟩

/-- `torch.arange(world_size).reshape(-1, dp, pp, pcp, sp, tp)`. -/
def allRanks (worldSize : Nat) : Option (List Axis) :=
  let known := [s.dp, s.pp, s.pcp, s.sp, s.tp].prod
  if known ∣ worldSize then
    some (rowMajor [worldSize / known, s.dp, s.pp, s.pcp, s.sp, s.tp])
  else none

end ParallelSizes

/-- `permute(*order)`. -/
def permute (order : List Nat) (axes : List Axis) : List Axis :=
  order.filterMap (axes[·]?)

/-- `transpose(i, j)`. -/
def transpose (i j : Nat) (axes : List Axis) : List Axis :=
  permute ((range axes.length).map fun k => if k = i then j else if k = j then i else k) axes

/-- `reshape(-1, k).unbind(0)`, each row as a list. -/
def rows (k : Nat) (axes : List Axis) : Option (List (List Nat)) :=
  if 0 < k ∧ k ∣ total axes then
    some (cut (replicate (total axes / k) k) (addresses axes))
  else none

/-! ## The groups -/

/-- The lists of groups of `initialize_model_parallel`. -/
structure GroupRanks where
  tp : List (List Nat)
  dcp : List (List Nat)
  pcp : List (List Nat)
  pp : List (List Nat)
  dp : List (List Nat)
  ep : List (List Nat)
  sp : List (List Nat)
  spTp : List (List Nat)

/-- `initialize_model_parallel`; a decode-context size of `None` means that of TP. -/
def initializeModelParallel (worldSize : Nat) (s : ParallelSizes) (dcp : Option Nat) :
    Option GroupRanks := do
  let allRanks ← s.allRanks worldSize
  return {
    tp := ← rows s.tp allRanks
    dcp := ← rows (dcp.getD s.tp) allRanks
    pcp := ← rows s.pcp (transpose 3 5 allRanks)
    pp := ← rows s.pp (transpose 2 5 allRanks)
    dp := ← rows s.dp (transpose 1 5 allRanks)
    ep := ← rows (s.dp * s.pcp * s.tp) (permute [0, 4, 2, 1, 3, 5] allRanks)
    sp := ← rows s.sp (transpose 4 5 allRanks)
    spTp := ← rows (s.tp * s.sp) (transpose 4 5 allRanks) }

/-! ## The stage of a rank -/

/-- What the layer count is read from. -/
structure ModelConfig where
  textModelType : String
  modelType : String
  numHiddenLayers : Option Nat
  numNextnPredictLayers : Option Nat

/-- `total_num_hidden_layers`. -/
def ModelConfig.totalNumHiddenLayers (m : ModelConfig) : Nat :=
  if m.textModelType = "deepseek_mtp" ∨ m.modelType = "mimo_mtp" ∨ m.modelType = "glm4_moe_mtp" then
    m.numNextnPredictLayers.getD 0
  else m.numHiddenLayers.getD 0

/-- `pp_rank` of `get_layers_start_end_indices`. -/
def layerStage (s : ParallelSizes) (rank : Nat) : Nat :=
  rank / (s.tp * s.sp) % s.pp

/-- `get_layers_start_end_indices`. -/
def layersStartEndIndices (getPpIndices : Nat → Nat → Nat → Nat × Nat) (m : ModelConfig)
    (s : ParallelSizes) (rank : Nat) : Nat × Nat :=
  getPpIndices m.totalNumHiddenLayers (layerStage s rank) s.pp

/-- The ranges follow each other from `start` to `stop`. -/
def Tiles : (start stop : Nat) → List (Nat × Nat) → Prop
  | start, stop, [] => start = stop
  | start, stop, r :: ranges => r.1 = start ∧ r.1 ≤ r.2 ∧ Tiles r.2 stop ranges

/-! ## Consistent layouts -/

section Layouts

variable (s : ParallelSizes) (external : Nat)

/-- A partition into groups that differ at most on the given axes. -/
structure Layout (size : Nat) (varied : List Dim) (groups : List (List Nat)) : Prop where
  partition : PartitionInto (external * (s.dp * s.engineSize)) size groups
  agree : ∀ g ∈ groups, ∀ x ∈ g, ∀ y ∈ g, ∀ d ∉ varied,
    (s.axis external d).coord x = (s.axis external d).coord y

/-- What the lists of groups promise. -/
structure GroupRanks.Consistent (dcpSize : Nat) (g : GroupRanks) : Prop where
  tp : Layout s external s.tp [.tp] g.tp
  dcp : Layout s external dcpSize [.tp] g.dcp
  dcp_block : ∀ group ∈ g.dcp, ∀ x ∈ group, ∀ y ∈ group,
    (s.axis external .tp).coord x / dcpSize = (s.axis external .tp).coord y / dcpSize
  pcp : Layout s external s.pcp [.pcp] g.pcp
  pp : Layout s external s.pp [.pp] g.pp
  dp : Layout s external s.dp [.dp] g.dp
  ep : Layout s external (s.dp * s.pcp * s.tp) [.dp, .pcp, .tp] g.ep
  sp : Layout s external s.sp [.sp] g.sp
  spTp : Layout s external (s.tp * s.sp) [.tp, .sp] g.spTp
  positions : ∀ rank t k q, At g.tp rank t → At g.sp rank k → At g.spTp rank q → q = t * s.sp + k

/-- The stages of every engine are the positions in the pipeline groups, and the layers of a
pipeline group are the model. -/
structure GroupRanks.StagesFit (getPpIndices : Nat → Nat → Nat → Nat × Nat) (m : ModelConfig)
    (g : GroupRanks) : Prop where
  stage : ∀ engine < external * s.dp, ∀ rank < s.engineSize, ∀ p,
    At g.pp (engine * s.engineSize + rank) p → layerStage s rank = p
  tiles : ∀ group ∈ g.pp, Tiles 0 m.totalNumHiddenLayers
    (group.map fun rank => layersStartEndIndices getPpIndices m s (rank % s.engineSize))

variable {s external}

/-! ## Reading groups off the array -/

variable {k : Nat}

theorem rows_eq_groups {axes : List Axis} (outer inner : List Axis) (haxes : axes = outer ++ inner)
    (hk : total inner = k) (hpos : 0 < k) : rows k axes = some (groups outer inner) := by
  subst haxes hk
  have hlengths : (groups outer inner).map List.length = replicate (total outer) (total inner) := by
    simp [groups, map_const', Function.comp_def]
  rw [rows, if_pos ⟨hpos, by rw [total_append]; exact dvd_mul_left _ _⟩, total_append,
    Nat.mul_div_cancel _ hpos, addresses_append, ← hlengths, cut_flatten]

theorem rowMajor_axes (s : ParallelSizes) (external : Nat) : RowMajor (dims.map (s.axis external)) :=
  rowMajor_spec [external, s.dp, s.pp, s.pcp, s.sp, s.tp]

theorem total_axes (s : ParallelSizes) (external : Nat) :
    total (dims.map (s.axis external)) = external * (s.dp * s.engineSize) := by
  simp only [dims, map_cons, map_nil, total_cons, total_nil, ParallelSizes.axis,
    ParallelSizes.engineSize]
  ring

theorem allRanks_eq (s : ParallelSizes) (external : Nat) :
    s.allRanks (external * (s.dp * s.engineSize)) = some (dims.map (s.axis external)) := by
  have hknown : [s.dp, s.pp, s.pcp, s.sp, s.tp].prod = s.dp * s.engineSize := by
    simp only [prod_cons, prod_nil, ParallelSizes.engineSize]
    ring
  have hpos : 0 < s.dp * s.engineSize := by
    obtain ⟨h₁, h₂, h₃, h₄, h₅⟩ := s.pos
    rw [ParallelSizes.engineSize]
    positivity
  rw [ParallelSizes.allRanks, hknown, if_pos (dvd_mul_left _ _), Nat.mul_div_cancel _ hpos]
  rfl

/-- The groups read off one order of the axes. -/
theorem layout_groups (s : ParallelSizes) (external : Nat) {outer inner : List Dim}
    (hperm : (outer ++ inner).Perm dims) :
    Layout s external (total (inner.map (s.axis external))) inner
      (groups (outer.map (s.axis external)) (inner.map (s.axis external))) := by
  have hmap : (outer.map (s.axis external) ++ inner.map (s.axis external)).Perm
      (dims.map (s.axis external)) := by
    rw [← map_append]
    exact hperm.map _
  constructor
  · rw [← total_axes]
    exact groups_partition (rowMajor_axes s external) hmap
  · intro g hg x hx y hy d hd
    have hmem : d ∈ outer ++ inner := hperm.symm.subset (mem_dims d)
    have houter : d ∈ outer := (mem_append.mp hmem).resolve_right hd
    exact coord_eq_of_mem_groups (rowMajor_axes s external) hmap hg hx hy (mem_map_of_mem houter)

/-! ## The decode-context groups -/

/-- The array with its last axis cut into blocks. -/
def blockedAxes (s : ParallelSizes) (external k : Nat) : List Axis :=
  [.externalDp, .dp, .pp, .pcp, .sp].map (s.axis external) ++ [⟨s.tp / k, k⟩]

theorem rowMajor_blockedAxes (external : Nat) (hk : k ∣ s.tp) :
    RowMajor (blockedAxes s external k ++ [⟨k, 1⟩]) := by
  have htp : s.tp / k * k = s.tp := Nat.div_mul_cancel hk
  simp [blockedAxes, RowMajor, ParallelSizes.axis, total, htp]

theorem total_blockedAxes (hk : k ∣ s.tp) :
    total (blockedAxes s external k ++ [⟨k, 1⟩]) = external * (s.dp * s.engineSize) := by
  have htp : s.tp / k * k = s.tp := Nat.div_mul_cancel hk
  rw [← total_axes]
  simp [blockedAxes, dims, ParallelSizes.axis, total, htp]

theorem rows_dcp (hk : k ∣ s.tp) (hpos : 0 < k) :
    rows k (dims.map (s.axis external)) = some (groups (blockedAxes s external k) [⟨k, 1⟩]) := by
  have hsame : rows k (dims.map (s.axis external)) = rows k (blockedAxes s external k ++ [⟨k, 1⟩]) := by
    rw [rows, rows, addresses_eq_range (rowMajor_axes s external),
      addresses_eq_range (rowMajor_blockedAxes external hk), total_axes, total_blockedAxes hk]
  rw [hsame]
  exact rows_eq_groups _ _ rfl (by simp) hpos

theorem layout_dcp (hk : k ∣ s.tp) :
    Layout s external k [.tp] (groups (blockedAxes s external k) [⟨k, 1⟩]) := by
  constructor
  · have hpart := groups_partition (rowMajor_blockedAxes external hk) (.refl _)
    rwa [total_blockedAxes hk, total_cons, total_nil, mul_one] at hpart
  · intro g hg x hx y hy d hd
    have houter : s.axis external d ∈ blockedAxes s external k := by
      cases d <;> simp_all [blockedAxes]
    exact coord_eq_of_mem_groups (rowMajor_blockedAxes external hk) (.refl _) hg hx hy houter

theorem dcp_block (hk : k ∣ s.tp) {g : List Nat} {x y : Nat}
    (hg : g ∈ groups (blockedAxes s external k) [⟨k, 1⟩]) (hx : x ∈ g) (hy : y ∈ g) :
    (s.axis external .tp).coord x / k = (s.axis external .tp).coord y / k := by
  have hcoord : ∀ z, (s.axis external .tp).coord z / k = (Axis.mk (s.tp / k) k).coord z := by
    intro z
    have htp : s.tp = k * (s.tp / k) := (Nat.mul_div_cancel' hk).symm
    simp only [Axis.coord, ParallelSizes.axis, Nat.div_one]
    conv_lhs => rw [htp]
    exact Nat.mod_mul_right_div_self _ _ _
  rw [hcoord, hcoord]
  exact coord_eq_of_mem_groups (rowMajor_blockedAxes external hk) (.refl _) hg hx hy (by simp [blockedAxes])

/-! ## The lists that are built -/

/-- The groups of the six axes and of their products. -/
def groupRanks (s : ParallelSizes) (external k : Nat) : GroupRanks :=
  let read (outer inner : List Dim) := groups (outer.map (s.axis external)) (inner.map (s.axis external))
  { tp := read [.externalDp, .dp, .pp, .pcp, .sp] [.tp]
    dcp := groups (blockedAxes s external k) [⟨k, 1⟩]
    pcp := read [.externalDp, .dp, .pp, .tp, .sp] [.pcp]
    pp := read [.externalDp, .dp, .tp, .pcp, .sp] [.pp]
    dp := read [.externalDp, .tp, .pp, .pcp, .sp] [.dp]
    ep := read [.externalDp, .sp, .pp] [.dp, .pcp, .tp]
    sp := read [.externalDp, .dp, .pp, .pcp, .tp] [.sp]
    spTp := read [.externalDp, .dp, .pp, .pcp] [.tp, .sp] }

theorem initializeModelParallel_eq (s : ParallelSizes) (external : Nat) {dcp : Option Nat}
    (hdcp : ∀ k, dcp = some k → k ∣ s.tp) :
    initializeModelParallel (external * (s.dp * s.engineSize)) s dcp =
      some (groupRanks s external (dcp.getD s.tp)) := by
  obtain ⟨h₁, h₂, h₃, h₄, h₅⟩ := s.pos
  have hk : dcp.getD s.tp ∣ s.tp := by
    cases dcp with
    | none => exact dvd_rfl
    | some k => exact hdcp k rfl
  have hrow (k : Nat) (axes : List Axis) (outer inner : List Dim)
      (haxes : axes = (outer ++ inner).map (s.axis external))
      (htotal : total (inner.map (s.axis external)) = k) (hpos : 0 < k) :
      rows k axes = some (groups (outer.map (s.axis external)) (inner.map (s.axis external))) :=
    rows_eq_groups _ _ (by rw [haxes, map_append]) htotal hpos
  have htp := hrow s.tp (dims.map (s.axis external)) [.externalDp, .dp, .pp, .pcp, .sp] [.tp] rfl
    (by simp [ParallelSizes.axis]) h₅
  have hpcp := hrow s.pcp (transpose 3 5 (dims.map (s.axis external)))
    [.externalDp, .dp, .pp, .tp, .sp] [.pcp] rfl (by simp [ParallelSizes.axis]) h₃
  have hpp := hrow s.pp (transpose 2 5 (dims.map (s.axis external)))
    [.externalDp, .dp, .tp, .pcp, .sp] [.pp] rfl (by simp [ParallelSizes.axis]) h₂
  have hdp := hrow s.dp (transpose 1 5 (dims.map (s.axis external)))
    [.externalDp, .tp, .pp, .pcp, .sp] [.dp] rfl (by simp [ParallelSizes.axis]) h₁
  have hep := hrow (s.dp * s.pcp * s.tp) (permute [0, 4, 2, 1, 3, 5] (dims.map (s.axis external)))
    [.externalDp, .sp, .pp] [.dp, .pcp, .tp] rfl (by simp [ParallelSizes.axis, mul_assoc])
    (by positivity)
  have hsp := hrow s.sp (transpose 4 5 (dims.map (s.axis external)))
    [.externalDp, .dp, .pp, .pcp, .tp] [.sp] rfl (by simp [ParallelSizes.axis]) h₄
  have hspTp := hrow (s.tp * s.sp) (transpose 4 5 (dims.map (s.axis external)))
    [.externalDp, .dp, .pp, .pcp] [.tp, .sp] rfl (by simp [ParallelSizes.axis]) (by positivity)
  rw [initializeModelParallel, allRanks_eq]
  simp only [Option.bind_eq_bind, Option.bind_some, htp, rows_dcp hk (Nat.pos_of_dvd_of_pos hk h₅),
    hpcp, hpp, hdp, hep, hsp, hspTp]
  rfl

theorem groupRanks_consistent (external : Nat) (hk : k ∣ s.tp) :
    (groupRanks s external k).Consistent s external k := by
  have hof (outer inner : List Dim) {n : Nat} (hperm : (outer ++ inner).Perm dims)
      (hsize : total (inner.map (s.axis external)) = n) :
      Layout s external n inner
        (groups (outer.map (s.axis external)) (inner.map (s.axis external))) :=
    hsize ▸ layout_groups s external hperm
  have hone (d : Dim) (outer : List Dim) (hperm : (outer ++ [d]).Perm dims) :=
    hof outer [d] hperm (by rw [map_singleton, total_cons, total_nil, mul_one])
  constructor
  case tp => exact hone .tp _ (by decide)
  case dcp => exact layout_dcp hk
  case dcp_block => exact fun group hg x hx y hy => dcp_block hk hg hx hy
  case pcp => exact hone .pcp _ (by decide)
  case pp => exact hone .pp _ (by decide)
  case dp => exact hone .dp _ (by decide)
  case sp => exact hone .sp _ (by decide)
  case ep => exact hof _ _ (by decide) (by simp [ParallelSizes.axis, mul_assoc])
  case spTp => exact hof _ _ (by decide) (by simp [ParallelSizes.axis])
  case positions =>
    intro rank t k q ht hk hq
    have hmajor := rowMajor_axes s external
    have hperm : ([.externalDp, .dp, .pp, .pcp, .tp, .sp] : List Dim).Perm dims := by decide
    rw [← at_groups_one hmajor (.refl _) ht, ← at_groups_one hmajor (hperm.map (s.axis external)) hk]
    exact at_groups_two hmajor (hperm.map (s.axis external)) hq

/-! ## The stages -/

theorem coord_pp (engine rank : Nat) :
    (s.axis external .pp).coord (engine * s.engineSize + rank) =
      rank / (s.pcp * (s.sp * s.tp)) % s.pp := by
  obtain ⟨h₁, h₂, h₃, h₄, h₅⟩ := s.pos
  have hengine : engine * s.engineSize = engine * s.pp * (s.pcp * (s.sp * s.tp)) := by
    rw [ParallelSizes.engineSize]
    ring
  have hstride : (s.axis external .pp).stride = s.pcp * (s.sp * s.tp) := by simp [ParallelSizes.axis]
  rw [Axis.coord, hstride, hengine, add_comm, Nat.add_mul_div_right _ _ (by positivity)]
  exact Nat.add_mul_mod_self_right _ _ _

theorem at_pp {k x p : Nat} (hat : At (groupRanks s external k).pp x p) :
    (s.axis external .pp).coord x = p := by
  have hperm : ([.externalDp, .dp, .tp, .pcp, .sp, .pp] : List Dim).Perm dims := by decide
  exact at_groups_one (rowMajor_axes s external) (hperm.map (s.axis external)) hat

theorem exists_at_pp {k x : Nat} (hk : k ∣ s.tp) (hx : x < external * (s.dp * s.engineSize)) :
    ∃ p, At (groupRanks s external k).pp x p := by
  have hmem := (groupRanks_consistent external hk).pp.partition.perm.mem_iff.mpr
    (mem_range.mpr hx)
  obtain ⟨g, hg, hxg⟩ := mem_flatten.mp hmem
  obtain ⟨p, hp⟩ := getElem?_of_mem hxg
  exact ⟨p, g, hg, hp⟩

theorem stages_agree_iff (s : ParallelSizes) :
    (∀ rank < s.engineSize, layerStage s rank = rank / (s.pcp * (s.sp * s.tp)) % s.pp) ↔
      s.pcp = 1 ∨ s.pp = 1 := by
  obtain ⟨h₁, h₂, h₃, h₄, h₅⟩ := s.pos
  have hswap : s.tp * s.sp = s.sp * s.tp := mul_comm _ _
  have hinner : 0 < s.sp * s.tp := mul_pos h₄ h₅
  constructor
  · intro h
    by_contra hne
    have hpcp : 1 < s.pcp := by omega
    have hpp : 1 < s.pp := by omega
    -- The first rank after those that differ only in SP and TP.
    have hlt : s.sp * s.tp < s.pcp * (s.sp * s.tp) := (Nat.lt_mul_iff_one_lt_left hinner).mpr hpcp
    have hrank : s.tp * s.sp < s.engineSize := by
      calc s.tp * s.sp < s.pcp * (s.sp * s.tp) := hswap ▸ hlt
        _ ≤ s.pp * (s.pcp * (s.sp * s.tp)) := Nat.le_mul_of_pos_left _ h₂
        _ = s.engineSize := by rw [ParallelSizes.engineSize]; ring
    have hstage := h _ hrank
    rw [layerStage, hswap, Nat.div_self hinner, Nat.div_eq_of_lt hlt, Nat.zero_mod,
      Nat.mod_eq_of_lt hpp] at hstage
    exact Nat.one_ne_zero hstage
  · rintro (hpcp | hpp) rank -
    · rw [layerStage, hpcp, one_mul, hswap]
    · rw [layerStage, hpp, Nat.mod_one, Nat.mod_one]

theorem map_layers (hk : k ∣ s.tp) {getPpIndices : Nat → Nat → Nat → Nat × Nat} {m : ModelConfig}
    (hagree : ∀ rank < s.engineSize, layerStage s rank = rank / (s.pcp * (s.sp * s.tp)) % s.pp)
    {group : List Nat} (hgroup : group ∈ (groupRanks s external k).pp) :
    (group.map fun rank => layersStartEndIndices getPpIndices m s (rank % s.engineSize)) =
      (range s.pp).map fun stage => getPpIndices m.totalNumHiddenLayers stage s.pp := by
  obtain ⟨h₁, h₂, h₃, h₄, h₅⟩ := s.pos
  have hengine : 0 < s.engineSize := by
    rw [ParallelSizes.engineSize]
    positivity
  have hlength := (groupRanks_consistent external hk).pp.partition.length_eq group hgroup
  apply ext_getElem (by simp [hlength])
  intro i hi hi'
  rw [length_map] at hi
  have hat : At (groupRanks s external k).pp group[i] i := ⟨group, hgroup, getElem?_eq_getElem hi⟩
  have hcoord := at_pp hat
  rw [← Nat.div_add_mod' group[i] s.engineSize, coord_pp, ← hagree _ (Nat.mod_lt _ hengine)] at hcoord
  rw [getElem_map, getElem_map, getElem_range, layersStartEndIndices, hcoord]

/-- The groups always fit the array; the stages fit the pipeline groups exactly without prefill
context parallelism or without a pipeline. -/
theorem rank_layout_iff {getPpIndices : Nat → Nat → Nat → Nat × Nat}
    (hpp : ∀ total n, 0 < n → Tiles 0 total ((range n).map fun stage => getPpIndices total stage n))
    (m : ModelConfig) (s : ParallelSizes) (external : Nat) (hexternal : 0 < external) (dcp : Option Nat)
    (hdcp : ∀ k, dcp = some k → k ∣ s.tp) :
    ∃ g, initializeModelParallel (external * (s.dp * s.engineSize)) s dcp = some g ∧
      g.Consistent s external (dcp.getD s.tp) ∧
      (g.StagesFit s external getPpIndices m ↔ s.pcp = 1 ∨ s.pp = 1) := by
  have hk : dcp.getD s.tp ∣ s.tp := by
    cases dcp with
    | none => exact dvd_rfl
    | some k => exact hdcp k rfl
  refine ⟨_, initializeModelParallel_eq s external hdcp, groupRanks_consistent external hk, ?_⟩
  rw [← stages_agree_iff]
  constructor
  · intro h rank hrank
    have hworld : 0 * s.engineSize + rank < external * (s.dp * s.engineSize) := by
      calc 0 * s.engineSize + rank < s.engineSize := by omega
        _ ≤ s.dp * s.engineSize := Nat.le_mul_of_pos_left _ s.pos.1
        _ ≤ external * (s.dp * s.engineSize) := Nat.le_mul_of_pos_left _ hexternal
    obtain ⟨p, hp⟩ := exists_at_pp hk hworld
    rw [h.stage 0 (mul_pos hexternal s.pos.1) rank hrank p hp, ← at_pp hp, coord_pp]
  · intro hagree
    constructor
    case stage =>
      intro engine _ rank hrank p hp
      rw [hagree rank hrank, ← at_pp hp, coord_pp]
    case tiles =>
      intro group hgroup
      rw [map_layers hk hagree hgroup]
      exact hpp _ _ s.pos.2.1

end Layouts

/-! ## A pipeline with prefill context parallelism -/

theorem tiles_of_monotone {f : Nat → Nat} (hf : Monotone f) (n : Nat) :
    Tiles (f 0) (f n) ((range n).map fun i => (f i, f (i + 1))) := by
  induction n generalizing f with
  | zero => rfl
  | succ n ih =>
    rw [range_succ_eq_map, map_cons, map_map]
    exact ⟨rfl, hf (Nat.le_succ 0), ih (hf.comp fun _ _ => Nat.succ_le_succ)⟩

/-- An even partition of the layers. -/
def evenIndices (total stage n : Nat) : Nat × Nat :=
  (stage * total / n, (stage + 1) * total / n)

theorem tiles_evenIndices (total n : Nat) (hn : 0 < n) :
    Tiles 0 total ((range n).map fun stage => evenIndices total stage n) := by
  have hmono : Monotone fun i => i * total / n :=
    fun i j hij => Nat.div_le_div_right (Nat.mul_le_mul_right total hij)
  have htiles : Tiles (0 * total / n) (n * total / n)
      ((range n).map fun stage => evenIndices total stage n) := tiles_of_monotone hmono n
  rwa [zero_mul, Nat.zero_div, Nat.mul_div_cancel_left total hn] at htiles

/-- Two stages and a prefill context of two. -/
def twoByTwo : ParallelSizes := ⟨1, 2, 2, 1, 1, by decide⟩

def twoLayers : ModelConfig := ⟨"llama", "llama", some 2, none⟩

theorem rank_layout_iff_twoByTwo : ∃ g, initializeModelParallel 4 twoByTwo none = some g ∧
    g.Consistent twoByTwo 1 1 ∧
    (g.StagesFit twoByTwo 1 evenIndices twoLayers ↔ twoByTwo.pcp = 1 ∨ twoByTwo.pp = 1) :=
  rank_layout_iff tiles_evenIndices twoLayers twoByTwo 1 (by decide) none (by simp)

/-- Rank 1 is first in its pipeline group and takes the layers of the second stage. -/
theorem stage_skips_prefill_context :
    initializeModelParallel 4 twoByTwo none = some (groupRanks twoByTwo 1 1) ∧
      ¬(groupRanks twoByTwo 1 1).StagesFit twoByTwo 1 evenIndices twoLayers := by
  refine ⟨initializeModelParallel_eq twoByTwo 1 (by simp), fun h => ?_⟩
  have hstage := h.stage 0 (by decide) 1 (by decide) 0 ⟨[1, 3], by decide, rfl⟩
  exact absurd hstage (by decide)

end ArcticPlatform.Ulysses
