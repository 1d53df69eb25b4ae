import ArcticPlatform.Library.Meshes

/-!
# Rank layouts for sequence, expert and data parallelism

Which of five topologies a job gets is decided by divisibility tests on its world
size, the two degrees and the number of devices of a node.  Every topology has its
own index formulas for the groups.  This module has the tests and the formulas;
sizes are natural numbers and a size of zero stands for a value that is not positive.

Main results:

- Theorem `epGroups_eq`: node-local blocks are blocks of consecutive ranks.
- Theorem `rankToDpSp_eq`: the data-plane coordinates as functions of the rank.
-/

namespace ArcticPlatform.Parallel

open Meshes List Function

/-! ## Choosing a topology -/

/-- `EP_GROUP_LAYOUTS`. -/
inductive EpGroupLayout
  | auto
  | packed
  | mesh
  deriving DecidableEq

/-- The names `resolve_ep_group_topology` returns. -/
inductive Topology
  | standard
  | orthogonal
  | nodeLocal
  | decoupled
  | hostComplete
  deriving DecidableEq

/-- The errors of the resolver with the values their messages show. -/
inductive Refusal
  /-- `ep_group_layout must be one of …; got …` -/
  | unknownLayout (value : String)
  /-- `ep_group_layout='mesh' requires (world_size // sp_size) % ep_size == 0 …` -/
  | meshShape (worldSize spSize epSize : Nat)
  /-- `ep_group_layout='packed' requires gpus_per_node > 0` -/
  | packedGpus
  /-- `ep_group_layout='packed' requires a whole number of GPU nodes` -/
  | packedNodes
  /-- `ep_group_layout='packed' requires ep_size to divide gpus_per_node or …` -/
  | packedEp (epSize gpusPerNode : Nat)
  /-- `unsupported SP/EP topology …` -/
  | unsupported (spSize epSize worldSize gpusPerNode : Nat) (layout : EpGroupLayout)
  deriving DecidableEq

/-- `normalize_ep_group_layout`. -/
def normalizeEpGroupLayout : Option String → Except Refusal EpGroupLayout
  | none => .ok .auto
  | some "auto" => .ok .auto
  | some "packed" => .ok .packed
  | some "mesh" => .ok .mesh
  | some value => .error (.unknownLayout value)

/-- `use_node_local_ep`. -/
def useNodeLocalEp (worldSize spSize epSize gpusPerNode : Nat) : Bool :=
  if epSize = 1 ∨ spSize = 1 then false
  else if gpusPerNode = 0 ∨ worldSize ≤ gpusPerNode then false
  else if worldSize % gpusPerNode ≠ 0 ∨ gpusPerNode % epSize ≠ 0 then false
  else if worldSize % spSize ≠ 0 then false
  else if (worldSize / spSize) % epSize ≠ 0 then false
  else gpusPerNode % (spSize * epSize) ≠ 0

/-- `use_intra_node_ep_decoupled`. -/
def useIntraNodeEpDecoupled (worldSize spSize epSize gpusPerNode : Nat) : Bool :=
  if spSize = 1 ∨ epSize = 1 then false
  else if gpusPerNode = 0 ∨ gpusPerNode % epSize ≠ 0 then false
  else if worldSize % gpusPerNode ≠ 0 then false
  else if worldSize % spSize ≠ 0 ∨ worldSize % epSize ≠ 0 then false
  else spSize = worldSize ∨ (worldSize / spSize) % epSize ≠ 0

/-- `use_host_complete_ep`. -/
def useHostCompleteEp (worldSize spSize epSize gpusPerNode : Nat) : Bool :=
  if epSize = 1 ∨ spSize = 1 then false
  else if gpusPerNode = 0 ∨ worldSize ≤ gpusPerNode then false
  else if worldSize % gpusPerNode ≠ 0 then false
  else if worldSize % spSize ≠ 0 ∨ worldSize % epSize ≠ 0 then false
  else if epSize % gpusPerNode ≠ 0 then false
  else if gpusPerNode % epSize = 0 then false
  else if epSize &&& (epSize - 1) ≠ 0 then false
  else true

/-- `mesh_valid` of the resolver. -/
def meshValid (worldSize spSize epSize : Nat) : Bool :=
  worldSize % spSize = 0 ∧ spSize ≠ worldSize ∧ (worldSize / spSize) % epSize = 0

/-- `resolve_ep_group_topology`. -/
def resolveEpGroupTopology (worldSize spSize epSize gpusPerNode : Nat)
    (epGroupLayout : Option String) : Except Refusal Topology :=
  match normalizeEpGroupLayout epGroupLayout with
  | .error e => .error e
  | .ok layout =>
    if spSize ≤ 1 ∨ epSize ≤ 1 then .ok .standard
    else
      match layout with
      | .mesh =>
        if meshValid worldSize spSize epSize then .ok .orthogonal
        else .error (.meshShape worldSize spSize epSize)
      | .packed =>
        if gpusPerNode = 0 then .error .packedGpus
        else if worldSize % gpusPerNode ≠ 0 then .error .packedNodes
        else if gpusPerNode % epSize = 0 then
          -- the shape of the sequence-parallel groups is not looked at any more
          .ok (if meshValid worldSize spSize epSize then .nodeLocal else .decoupled)
        else if useHostCompleteEp worldSize spSize epSize gpusPerNode then .ok .hostComplete
        else .error (.packedEp epSize gpusPerNode)
      | .auto =>
        if useNodeLocalEp worldSize spSize epSize gpusPerNode then .ok .nodeLocal
        else if useIntraNodeEpDecoupled worldSize spSize epSize gpusPerNode then .ok .decoupled
        else if useHostCompleteEp worldSize spSize epSize gpusPerNode then .ok .hostComplete
        else if meshValid worldSize spSize epSize then .ok .orthogonal
        else .error (.unsupported spSize epSize worldSize gpusPerNode layout)

/-! ## Groups and coordinates -/

/-- `host_complete_ep_groups`. -/
def hostCompleteEpGroups (worldSize epSize : Nat) : List (List Nat) :=
  (starts worldSize epSize).map fun start => row epSize fun p => start + p

/-- `rank_to_node_sp_ep`. -/
def rankToNodeSpEp (rank epSize gpusPerNode : Nat) : Nat × Nat × Nat :=
  let node := rank / gpusPerNode
  let localRank := rank % gpusPerNode
  (node, localRank / epSize, localRank % epSize)

/-- `same_expert_slot`. -/
def sameExpertSlot (rank epSize gpusPerNode : Nat) : Nat :=
  let (node, intraSpIndex, _) := rankToNodeSpEp rank epSize gpusPerNode
  node * (gpusPerNode / epSize) + intraSpIndex

/-- `by_expert[ep_position]` of `sp_groups`. -/
def byExpert (worldSize epSize gpusPerNode epPosition : Nat) : List Nat :=
  (range (worldSize / gpusPerNode)).flatMap fun node =>
    row (gpusPerNode / epSize) fun intraSp => node * gpusPerNode + intraSp * epSize + epPosition

/-- `sp_groups`. -/
def spGroups (worldSize epSize gpusPerNode spSize : Nat) : List (List Nat) :=
  (range epSize).flatMap fun epPosition =>
    let ranks := byExpert worldSize epSize gpusPerNode epPosition
    (starts ranks.length spSize).map fun start => Slices.slice ranks start (start + spSize)

/-- `ep_groups`. -/
def epGroups (worldSize epSize gpusPerNode : Nat) : List (List Nat) :=
  (range (worldSize / gpusPerNode)).flatMap fun node =>
    (range (gpusPerNode / epSize)).map fun intraSp =>
      row epSize fun epPosition => node * gpusPerNode + intraSp * epSize + epPosition

/-- `rank_to_dp_sp`. -/
def rankToDpSp (worldSize epSize gpusPerNode spSize : Nat) : List (Nat × Nat) :=
  (range worldSize).map fun rank =>
    let (_, _, epPosition) := rankToNodeSpEp rank epSize gpusPerNode
    let slot := sameExpertSlot rank epSize gpusPerNode
    (slot / spSize * epSize + epPosition, slot % spSize)

/-- `intra_node_ep_groups`. -/
def intraNodeEpGroups (worldSize epSize gpusPerNode : Nat) : List (List Nat) :=
  epGroups worldSize epSize gpusPerNode

/-- `orthogonal_edp_groups`. -/
def orthogonalEdpGroups (worldSize spSize epSize : Nat) : List (List Nat) :=
  classes worldSize epSize fun rank => rank / spSize % epSize

/-- `intra_node_ep_replica_groups`. -/
def intraNodeEpReplicaGroups (worldSize epSize : Nat) : List (List Nat) :=
  classes worldSize epSize fun rank => rank % epSize

/-! ## What the tests establish -/

/-- The divisibility facts that the resolver has checked when it returns a topology. -/
def Topology.Shape (worldSize spSize epSize gpusPerNode : Nat) : Topology → Prop
  | .standard => spSize ≤ 1 ∨ epSize ≤ 1
  | .orthogonal =>
    1 < spSize ∧ 1 < epSize ∧ spSize ∣ worldSize ∧ epSize ∣ worldSize / spSize
  | .nodeLocal =>
    1 < spSize ∧ 1 < epSize ∧ spSize ∣ worldSize ∧ epSize ∣ worldSize / spSize ∧
      0 < gpusPerNode ∧ gpusPerNode ∣ worldSize ∧ epSize ∣ gpusPerNode
  | .decoupled =>
    1 < spSize ∧ 1 < epSize ∧ 0 < gpusPerNode ∧ gpusPerNode ∣ worldSize ∧ epSize ∣ gpusPerNode
  | .hostComplete =>
    1 < spSize ∧ 1 < epSize ∧ spSize ∣ worldSize ∧ epSize ∣ worldSize ∧
      0 < gpusPerNode ∧ gpusPerNode ∣ epSize

section Tests

variable {worldSize spSize epSize gpusPerNode : Nat}

theorem meshValid_spec (h : meshValid worldSize spSize epSize = true) :
    spSize ∣ worldSize ∧ epSize ∣ worldSize / spSize := by
  simp only [meshValid, decide_eq_true_eq] at h
  exact ⟨Nat.dvd_of_mod_eq_zero h.1, Nat.dvd_of_mod_eq_zero h.2.2⟩

theorem useNodeLocalEp_spec (h : useNodeLocalEp worldSize spSize epSize gpusPerNode = true) :
    spSize ∣ worldSize ∧ epSize ∣ worldSize / spSize ∧ 0 < gpusPerNode ∧
      gpusPerNode ∣ worldSize ∧ epSize ∣ gpusPerNode := by
  unfold useNodeLocalEp at h
  split_ifs at h with h1 h2 h3 h4 h5
  refine ⟨?_, ?_, ?_, ?_, ?_⟩
  · exact Nat.dvd_of_mod_eq_zero (by omega)
  · exact Nat.dvd_of_mod_eq_zero (by omega)
  · omega
  · exact Nat.dvd_of_mod_eq_zero (by omega)
  · exact Nat.dvd_of_mod_eq_zero (by omega)

theorem useIntraNodeEpDecoupled_spec
    (h : useIntraNodeEpDecoupled worldSize spSize epSize gpusPerNode = true) :
    spSize ∣ worldSize ∧ 0 < gpusPerNode ∧ gpusPerNode ∣ worldSize ∧ epSize ∣ gpusPerNode := by
  unfold useIntraNodeEpDecoupled at h
  split_ifs at h with h1 h2 h3 h4
  refine ⟨?_, ?_, ?_, ?_⟩
  · exact Nat.dvd_of_mod_eq_zero (by omega)
  · omega
  · exact Nat.dvd_of_mod_eq_zero (by omega)
  · exact Nat.dvd_of_mod_eq_zero (by omega)

theorem useHostCompleteEp_spec
    (h : useHostCompleteEp worldSize spSize epSize gpusPerNode = true) :
    spSize ∣ worldSize ∧ epSize ∣ worldSize ∧ 0 < gpusPerNode ∧ gpusPerNode ∣ epSize := by
  unfold useHostCompleteEp at h
  split_ifs at h with h1 h2 h3 h4 h5
  refine ⟨?_, ?_, ?_, ?_⟩
  · exact Nat.dvd_of_mod_eq_zero (by omega)
  · exact Nat.dvd_of_mod_eq_zero (by omega)
  · omega
  · exact Nat.dvd_of_mod_eq_zero (by omega)

theorem resolve_shape {epGroupLayout : Option String} {t : Topology}
    (h : resolveEpGroupTopology worldSize spSize epSize gpusPerNode epGroupLayout = .ok t) :
    t.Shape worldSize spSize epSize gpusPerNode := by
  unfold resolveEpGroupTopology at h
  cases hlayout : normalizeEpGroupLayout epGroupLayout with
  | error e => simp [hlayout] at h
  | ok layout =>
    rw [hlayout] at h
    dsimp only at h
    by_cases hone : spSize ≤ 1 ∨ epSize ≤ 1
    · rw [if_pos hone] at h
      cases h
      exact hone
    rw [if_neg hone] at h
    have hsp : 1 < spSize := by omega
    have hep : 1 < epSize := by omega
    cases layout with
    | mesh =>
      dsimp only at h
      split_ifs at h with hmesh
      cases h
      exact ⟨hsp, hep, meshValid_spec hmesh⟩
    | packed =>
      dsimp only at h
      split_ifs at h with hgpus hnodes hfit hmesh hhost
      · cases h
        have hdvd := meshValid_spec hmesh
        exact ⟨hsp, hep, hdvd.1, hdvd.2, pos_of_ne_zero hgpus,
          Nat.dvd_of_mod_eq_zero (not_not.mp hnodes), Nat.dvd_of_mod_eq_zero hfit⟩
      · cases h
        exact ⟨hsp, hep, pos_of_ne_zero hgpus,
          Nat.dvd_of_mod_eq_zero (not_not.mp hnodes), Nat.dvd_of_mod_eq_zero hfit⟩
      · cases h
        exact ⟨hsp, hep, useHostCompleteEp_spec hhost⟩
    | auto =>
      dsimp only at h
      split_ifs at h with hlocal hdec hhost hmesh
      · cases h
        exact ⟨hsp, hep, useNodeLocalEp_spec hlocal⟩
      · cases h
        exact ⟨hsp, hep, (useIntraNodeEpDecoupled_spec hdec).2⟩
      · cases h
        exact ⟨hsp, hep, useHostCompleteEp_spec hhost⟩
      · cases h
        exact ⟨hsp, hep, meshValid_spec hmesh⟩

end Tests

/-! ## The formulas on whole nodes -/

section Nodes

variable {nodes spPerNode epSize : Nat}

theorem hostCompleteEpGroups_eq {k : Nat} (hep : 0 < epSize) :
    hostCompleteEpGroups (k * epSize) epSize = blocks 1 k epSize := by
  simp [hostCompleteEpGroups, starts_mul hep, blocks, row, comp_def]

/-- Node-local blocks are the blocks of consecutive ranks. -/
theorem epGroups_eq (hep : 0 < epSize) (hsp : 0 < spPerNode) :
    epGroups (nodes * (spPerNode * epSize)) epSize (spPerNode * epSize) =
      blocks 1 (nodes * spPerNode) epSize := by
  have hgpus : 0 < spPerNode * epSize := mul_pos hsp hep
  have hslots := congrArg (map fun slot => row epSize fun p => slot * epSize + p)
    (rows_flatten nodes spPerNode)
  rw [map_flatMap] at hslots
  simp only [row, List.map_map, comp_def] at hslots
  simp only [epGroups, Nat.mul_div_cancel _ hgpus, Nat.mul_div_cancel _ hep, blocks, row,
    range_one, flatMap_singleton, mul_one, add_zero, ← hslots, add_mul, mul_assoc]

theorem byExpert_eq (hep : 0 < epSize) (hsp : 0 < spPerNode) (epPosition : Nat) :
    byExpert (nodes * (spPerNode * epSize)) epSize (spPerNode * epSize) epPosition =
      row (nodes * spPerNode) fun slot => slot * epSize + epPosition := by
  have hgpus : 0 < spPerNode * epSize := mul_pos hsp hep
  have hslots := congrArg (map fun slot => slot * epSize + epPosition)
    (rows_flatten nodes spPerNode)
  rw [map_flatMap] at hslots
  simp only [row, List.map_map, comp_def] at hslots
  simp only [byExpert, Nat.mul_div_cancel _ hgpus, Nat.mul_div_cancel _ hep, row, ← hslots,
    add_mul, mul_assoc]

theorem spGroups_eq {spSize k : Nat} (hep : 0 < epSize) (hsp : 0 < spPerNode) (hsize : 0 < spSize)
    (hslots : nodes * spPerNode = k * spSize) :
    spGroups (nodes * (spPerNode * epSize)) epSize (spPerNode * epSize) spSize =
      blocks epSize k spSize := by
  simp only [spGroups, byExpert_eq hep hsp, length_row, hslots, starts_mul hsize, blocks,
    List.map_map, comp_def]
  congr 1
  funext p
  apply map_congr_left
  intro i hi
  have hfit : i * spSize + spSize ≤ k * spSize := by
    rw [← Nat.succ_mul]
    exact Nat.mul_le_mul_right spSize (mem_range.mp hi)
  exact slice_row hfit

theorem rankToNodeSpEp_position (hdvd : epSize ∣ spPerNode * epSize) (rank : Nat) :
    (rankToNodeSpEp rank epSize (spPerNode * epSize)).2.2 = rank % epSize :=
  Nat.mod_mod_of_dvd rank hdvd

theorem sameExpertSlot_eq (hep : 0 < epSize) (rank : Nat) :
    sameExpertSlot rank epSize (spPerNode * epSize) = rank / epSize := by
  simp only [sameExpertSlot, rankToNodeSpEp, Nat.mul_div_cancel _ hep]
  have hnode : rank / (spPerNode * epSize) = rank / epSize / spPerNode := by
    rw [mul_comm, Nat.div_div_eq_div_mul]
  have hlocal : rank % (spPerNode * epSize) / epSize = rank / epSize % spPerNode :=
    Nat.mod_mul_left_div_self rank epSize spPerNode
  rw [hnode, hlocal, Nat.div_add_mod']

/-- The data-plane coordinates of a rank. -/
theorem rankToDpSp_eq {worldSize spSize : Nat} (hep : 0 < epSize) :
    rankToDpSp worldSize epSize (spPerNode * epSize) spSize = (range worldSize).map fun rank =>
        (rank / epSize / spSize * epSize + rank % epSize, rank / epSize % spSize) := by
  apply map_congr_left
  intro rank hrank
  simp only [sameExpertSlot_eq hep, ← rankToNodeSpEp_position (dvd_mul_left epSize spPerNode) rank]

end Nodes

end ArcticPlatform.Parallel
