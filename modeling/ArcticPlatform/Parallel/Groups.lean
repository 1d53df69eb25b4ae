import ArcticPlatform.Parallel.Topology

/-!
# Process groups of the five topologies

A job whose shape the resolver accepts builds its sequence-parallel groups, its
expert-parallel groups and the expert-data-parallel groups that reduce the expert
gradients.  Contiguous sequence groups and two of the expert layouts come from
DeepSpeed; they are parameters here, with the layouts that its docstrings give for
sizes that divide.

Main results:

- Theorem `assertHoldsEveryReplica_blocks`: the check on the expert-data-parallel
  groups passes for groups cut from a mesh.
- Theorem `dataPlane_coordinates`: the data-plane coordinates of the node-local layout.
- Theorem `parallel_layout_iff`: an accepted shape has consistent groups exactly
  when both degrees divide the world size.
-/

namespace ArcticPlatform.Parallel

open Meshes List

/-! ## The builders -/

/-- The group builders of DeepSpeed; `none` is a raised error. -/
structure Builders where
  /-- `initialize_sequence_parallel`: the sequence-parallel groups. -/
  initializeSequenceParallel : (worldSize spSize : Nat) → Option (List (List Nat))
  /-- `_create_expert_and_data_parallel`: expert and expert-data-parallel groups. -/
  createExpertAndDataParallel :
    (worldSize epSize : Nat) → Option (List (List Nat) × List (List Nat))
  /-- `_create_expert_data_and_model_parallel`: expert groups. -/
  createExpertDataAndModelParallel :
    (worldSize spSize epSize : Nat) → Option (List (List Nat))

/-- The documented layouts for sizes that divide. -/
structure Builders.Documented (b : Builders) : Prop where
  sequence : ∀ worldSize spSize, 1 < spSize → spSize ∣ worldSize →
    b.initializeSequenceParallel worldSize spSize = some (blocks 1 (worldSize / spSize) spSize)
  replicated : ∀ worldSize epSize, 1 < epSize → epSize ∣ worldSize →
    b.createExpertAndDataParallel worldSize epSize =
      some (blocks 1 (worldSize / epSize) epSize, classes worldSize epSize fun rank => rank % epSize)
  model : ∀ worldSize spSize epSize, 1 < spSize → 1 < epSize → spSize ∣ worldSize →
    epSize ∣ worldSize / spSize → b.createExpertDataAndModelParallel worldSize spSize epSize =
      some (blocks spSize (worldSize / spSize / epSize) epSize)

-- the expert groups of two shapes, as the check below documents them
example : blocks 2 2 2 = [[0, 2], [4, 6], [1, 3], [5, 7]] := by decide
example : blocks 2 1 4 = [[0, 2, 4, 6], [1, 3, 5, 7]] := by decide

/-- The groups of a job. -/
structure ParallelGroups where
  sp : List (List Nat)
  ep : List (List Nat)
  edp : List (List Nat)

/-- `assert_expert_data_parallel_group_holds_every_replica`, on every rank. -/
def assertHoldsEveryReplica (worldSize : Nat) (ep edp : List (List Nat)) : Bool :=
  (range worldSize).all fun rank =>
    match position ep rank with
    | none => false
    | some p =>
      let replicas := (range worldSize).filter fun peer => position ep peer = some p
      ((registered edp rank).getD []).mergeSort = replicas

/-- Expert groups with their replica groups, registered after the check. -/
def registerExpertGroups (worldSize : Nat) (sp ep edp : List (List Nat)) :
    Option ParallelGroups :=
  if assertHoldsEveryReplica worldSize ep edp then some ⟨sp, ep, edp⟩ else none

/-- A degree of one builds no group: every rank is a group by itself. -/
def alone (worldSize : Nat) : List (List Nat) :=
  (range worldSize).map fun rank => [rank]

/-- `setup_replicated_expert_groups`; with a degree of one every rank has every expert. -/
def setupReplicatedExpertGroups (b : Builders) (worldSize epSize : Nat) :
    Option ParallelGroups :=
  if 1 < epSize then
    (b.createExpertAndDataParallel worldSize epSize).map fun (ep, edp) => ⟨alone worldSize, ep, edp⟩
  else some ⟨alone worldSize, alone worldSize, [range worldSize]⟩

/-- `setup_node_local_groups`. -/
def setupNodeLocalGroups (worldSize spSize epSize gpusPerNode : Nat) : Option ParallelGroups :=
  let sp := spGroups worldSize epSize gpusPerNode spSize
  if (range worldSize).all fun rank => (registered sp rank).isSome then
    registerExpertGroups worldSize sp (epGroups worldSize epSize gpusPerNode)
      (intraNodeEpReplicaGroups worldSize epSize)
  else none

/-- The dispatch of `setup_parallel_groups` on the topology. -/
def buildGroups (b : Builders) (t : Topology) (worldSize spSize epSize gpusPerNode : Nat) :
    Option ParallelGroups :=
  if spSize = 1 then setupReplicatedExpertGroups b worldSize epSize
  else
    match t with
    | .nodeLocal => setupNodeLocalGroups worldSize spSize epSize gpusPerNode
    | .standard => do
      let sp ← b.initializeSequenceParallel worldSize spSize
      return ⟨sp, alone worldSize, [range worldSize]⟩
    | .decoupled => do
      let sp ← b.initializeSequenceParallel worldSize spSize
      registerExpertGroups worldSize sp (intraNodeEpGroups worldSize epSize gpusPerNode)
        (intraNodeEpReplicaGroups worldSize epSize)
    | .hostComplete => do
      let sp ← b.initializeSequenceParallel worldSize spSize
      registerExpertGroups worldSize sp (hostCompleteEpGroups worldSize epSize)
        (intraNodeEpReplicaGroups worldSize epSize)
    | .orthogonal => do
      let sp ← b.initializeSequenceParallel worldSize spSize
      let ep ← b.createExpertDataAndModelParallel worldSize spSize epSize
      registerExpertGroups worldSize sp ep (orthogonalEdpGroups worldSize spSize epSize)

/-! ## Consistent layouts -/

/-- Both degrees cut the ranks evenly, and the replica groups are the classes of position. -/
structure ParallelGroups.Consistent (g : ParallelGroups) (worldSize spSize epSize : Nat) :
    Prop where
  sp_partition : PartitionInto worldSize spSize g.sp
  ep_partition : PartitionInto worldSize epSize g.ep
  edp_perm : g.edp.flatten.Perm (range worldSize)
  edp_length : g.edp.length = epSize
  edp_class : ∀ p c, g.edp[p]? = some c → ∀ rank, rank ∈ c ↔ At g.ep rank p

/-- The data-plane coordinates are a bijection onto the mesh and follow the sequence groups. -/
structure DataPlane (worldSize spSize : Nat) (sp : List (List Nat))
    (coordinates : List (Nat × Nat)) : Prop where
  length_eq : coordinates.length = worldSize
  nodup : coordinates.Nodup
  mem_iff : ∀ dp s, (dp, s) ∈ coordinates ↔ dp < worldSize / spSize ∧ s < spSize
  dp_eq_iff : ∀ a b ca cb, coordinates[a]? = some ca → coordinates[b]? = some cb →
    (ca.1 = cb.1 ↔ Together sp a b)
  sp_rank : ∀ a ca, coordinates[a]? = some ca → At sp a ca.2

/-- What the groups of a topology promise. -/
structure ParallelLayout (t : Topology) (worldSize spSize epSize gpusPerNode : Nat)
    (g : ParallelGroups) : Prop where
  consistent : g.Consistent worldSize spSize epSize
  within_node : t = .nodeLocal ∨ t = .decoupled →
    ∀ c ∈ g.ep, ∃ node, ∀ rank ∈ c, rank / gpusPerNode = node
  whole_nodes : t = .hostComplete →
    ∀ c ∈ g.ep, ∀ rank ∈ c, ∀ peer, peer / gpusPerNode = rank / gpusPerNode → peer ∈ c
  data_plane : t = .nodeLocal →
    DataPlane worldSize spSize g.sp (rankToDpSp worldSize epSize gpusPerNode spSize)

/-! ## Groups cut from a mesh -/

section Mesh

variable {stride count epSize : Nat}

/-- The check on the replica groups passes for groups cut from a mesh. -/
theorem assertHoldsEveryReplica_blocks :
    assertHoldsEveryReplica (stride * (count * epSize)) (blocks stride count epSize)
      (classes (stride * (count * epSize)) epSize fun rank => rank / stride % epSize) = true := by
  have hposition : ∀ rank < stride * (count * epSize),
      position (blocks stride count epSize) rank = some (rank / stride % epSize) :=
    fun rank hrank => position_eq (fun rank p => blocks_at) hrank
  rw [assertHoldsEveryReplica, all_eq_true]
  intro rank hrank
  rw [mem_range] at hrank
  have hsorted : ((range (stride * (count * epSize))).filter
      fun peer => peer / stride % epSize = rank / stride % epSize).Pairwise (· ≤ ·) :=
    (pairwise_le_range).filter _
  rw [hposition rank hrank, registered_classes hrank (digits_lt hrank).2.2, Option.getD_some]
  simp only [decide_eq_true_eq]
  rw [mergeSort_of_pairwise (by simpa using hsorted)]
  apply filter_congr
  intro peer hpeer
  rw [hposition peer (mem_range.mp hpeer)]
  simp

theorem consistent_blocks {worldSize spSize : Nat} {sp : List (List Nat)}
    (hsp : PartitionInto worldSize spSize sp) (hworld : worldSize = stride * (count * epSize)) :
    ParallelGroups.Consistent
      ⟨sp, blocks stride count epSize, classes worldSize epSize fun rank => rank / stride % epSize⟩
      worldSize spSize epSize := by
  subst hworld
  constructor
  · exact hsp
  · exact blocks_partition stride count epSize
  · exact classes_perm fun rank hrank => (digits_lt hrank).2.2
  · simp [classes]
  · intro p c hc rank
    rw [blocks_at]
    exact mem_classes hc rank

theorem registerExpertGroups_blocks {worldSize : Nat} (sp : List (List Nat))
    (hworld : worldSize = stride * (count * epSize)) :
    registerExpertGroups worldSize sp (blocks stride count epSize)
        (classes worldSize epSize fun rank => rank / stride % epSize) =
      some ⟨sp, blocks stride count epSize,
        classes worldSize epSize fun rank => rank / stride % epSize⟩ := by
  subst hworld
  rw [registerExpertGroups, if_pos assertHoldsEveryReplica_blocks]

theorem blocks_within_node {spPerNode : Nat} (hep : 0 < epSize) :
    ∀ c ∈ blocks 1 count epSize, ∃ node, ∀ rank ∈ c, rank / (spPerNode * epSize) = node := by
  intro c hc
  obtain ⟨p, hp, i, -, rfl⟩ := mem_blocks.mp hc
  refine ⟨i / spPerNode, ?_⟩
  intro rank hrank
  have hi := ((mem_block hp hep).mp hrank).2
  rw [Nat.div_one] at hi
  rw [mul_comm, ← Nat.div_div_eq_div_mul, hi]

theorem blocks_whole_nodes {gpusPerNode : Nat} (hep : 0 < epSize) (hnodes : gpusPerNode ∣ epSize) :
    ∀ c ∈ blocks 1 count epSize, ∀ rank ∈ c, ∀ peer,
      peer / gpusPerNode = rank / gpusPerNode → peer ∈ c := by
  intro c hc rank hrank peer hpeer
  obtain ⟨n, rfl⟩ := hnodes
  obtain ⟨p, hp, i, -, rfl⟩ := mem_blocks.mp hc
  rw [mem_block hp hep] at hrank ⊢
  have hp0 : p = 0 := Nat.lt_one_iff.mp hp
  refine ⟨by rw [hp0, Nat.mod_one], ?_⟩
  rw [← hrank.2, Nat.div_one, Nat.div_one, ← Nat.div_div_eq_div_mul, hpeer, Nat.div_div_eq_div_mul]

theorem alone_eq (worldSize : Nat) : alone worldSize = blocks 1 worldSize 1 := by
  simp [alone, blocks, row]

theorem range_eq_classes (worldSize : Nat) :
    [range worldSize] = classes worldSize 1 fun rank => rank / 1 % 1 := by
  simp [classes, Nat.mod_one]

end Mesh

/-! ## The data plane of the node-local layout -/

section DataPlane

variable {epSize spSize k spPerNode : Nat}

/-- The coordinates of the ranks of the mesh. -/
theorem dataPlane_coordinates (hep : 0 < epSize) (hsp : 0 < spSize) :
    DataPlane (epSize * (k * spSize)) spSize (blocks epSize k spSize)
      (rankToDpSp (epSize * (k * spSize)) epSize (spPerNode * epSize) spSize) := by
  rw [rankToDpSp_eq hep]
  have hget : ∀ {a : Nat} {c : Nat × Nat}, ((range (epSize * (k * spSize))).map fun rank =>
        (rank / epSize / spSize * epSize + rank % epSize, rank / epSize % spSize))[a]? = some c →
      a < epSize * (k * spSize) ∧ c.1 / epSize = a / epSize / spSize ∧ c.1 % epSize = a % epSize ∧
        c.2 = a / epSize % spSize := by
    intro a c hc
    simp only [getElem?_map, Option.map_eq_some_iff] at hc
    obtain ⟨rank, hrank, rfl⟩ := hc
    obtain ⟨ha, hrank⟩ := List.getElem?_eq_some_iff.mp hrank
    rw [getElem_range] at hrank
    rw [length_range] at ha
    subst hrank
    have hdigits := (digits_iff (Nat.mod_lt a hep)).mp
      (rfl : a / epSize / spSize * epSize + a % epSize = _)
    exact ⟨ha, hdigits.1, hdigits.2, rfl⟩
  constructor
  · simp
  · apply Nodup.map_on _ nodup_range
    intro x hx y hy heq
    rw [Prod.mk.injEq] at heq
    obtain ⟨hdp, hs⟩ := heq
    have hdigits := (digits_iff (Nat.mod_lt x hep)).mp hdp
    have hdigits' := (digits_iff (Nat.mod_lt y hep)).mp (Eq.refl (y / epSize / spSize * epSize + _))
    have hblock : x / epSize / spSize = y / epSize / spSize := hdigits.1.symm.trans hdigits'.1
    have hcol : x % epSize = y % epSize := hdigits.2.symm.trans hdigits'.2
    rw [← Nat.div_add_mod' x epSize, ← Nat.div_add_mod' (x / epSize) spSize, hblock, hs, hcol,
      Nat.div_add_mod', Nat.div_add_mod']
  · intro dp s
    have hdp : epSize * (k * spSize) / spSize = k * epSize := by
      rw [← mul_assoc, Nat.mul_div_cancel _ hsp, mul_comm]
    rw [mem_map, hdp]
    constructor
    · intro h
      obtain ⟨rank, hrank, heq⟩ := h
      rw [Prod.mk.injEq] at heq
      obtain ⟨-, hblock, hpos⟩ := digits_lt (mem_range.mp hrank)
      have hdigits := (digits_iff (Nat.mod_lt rank hep)).mp heq.1
      rw [← Nat.div_lt_iff_lt_mul hep, hdigits.1]
      exact ⟨hblock, heq.2 ▸ hpos⟩
    · intro h
      have hcol := (digits_iff (i := dp / epSize * spSize + s) (Nat.mod_lt dp hep)).mp rfl
      have hslot := (digits_iff (i := dp / epSize) h.2).mp rfl
      refine ⟨(dp / epSize * spSize + s) * epSize + dp % epSize, ?_, ?_⟩
      · rw [mem_range]
        apply lt_of_digits
        · exact Nat.mod_lt _ hep
        · rw [hcol.1, hslot.1]
          exact (Nat.div_lt_iff_lt_mul hep).mpr h.1
        · exact Nat.mod_lt _ hsp
      · rw [hcol.1, hcol.2, hslot.1, hslot.2, Nat.div_add_mod']
  · intro a b ca cb hca hcb
    obtain ⟨ha, hdiva, hmoda, -⟩ := hget hca
    obtain ⟨hb, hdivb, hmodb, -⟩ := hget hcb
    rw [blocks_together ha, ← hdiva, ← hdivb, ← hmoda, ← hmodb]
    constructor
    · intro h
      exact ⟨by rw [h], by rw [h]⟩
    · intro h
      rw [← Nat.div_add_mod' ca.1 epSize, h.1, h.2, Nat.div_add_mod']
  · intro a ca hca
    obtain ⟨ha, -, -, hs⟩ := hget hca
    rw [blocks_at]
    exact ⟨ha, hs.symm⟩

end DataPlane

/-! ## Accepted shapes -/

section Accepted

variable {b : Builders} {worldSize spSize epSize gpusPerNode : Nat}

theorem consecutive_partition (hsp : spSize ∣ worldSize) :
    PartitionInto worldSize spSize (blocks 1 (worldSize / spSize) spSize) := by
  have h := blocks_partition 1 (worldSize / spSize) spSize
  rwa [one_mul, Nat.div_mul_cancel hsp] at h

theorem intraNodeEpReplicaGroups_eq :
    intraNodeEpReplicaGroups worldSize epSize =
      classes worldSize epSize fun rank => rank / 1 % epSize := by
  simp only [intraNodeEpReplicaGroups, Nat.div_one]

theorem alone_partition (worldSize : Nat) : PartitionInto worldSize 1 (alone worldSize) := by
  have h := consecutive_partition (Nat.one_dvd worldSize)
  rwa [Nat.div_one, ← alone_eq] at h

theorem consistent_consecutive {sp : List (List Nat)} (hsp : PartitionInto worldSize spSize sp)
    (hdvd : epSize ∣ worldSize) :
    ParallelGroups.Consistent
      ⟨sp, blocks 1 (worldSize / epSize) epSize, intraNodeEpReplicaGroups worldSize epSize⟩
      worldSize spSize epSize := by
  rw [intraNodeEpReplicaGroups_eq]
  apply consistent_blocks hsp
  rw [one_mul, Nat.div_mul_cancel hdvd]

theorem registerExpertGroups_consecutive (sp : List (List Nat)) (hdvd : epSize ∣ worldSize) :
    registerExpertGroups worldSize sp (blocks 1 (worldSize / epSize) epSize)
        (intraNodeEpReplicaGroups worldSize epSize) =
      some ⟨sp, blocks 1 (worldSize / epSize) epSize,
        intraNodeEpReplicaGroups worldSize epSize⟩ := by
  rw [intraNodeEpReplicaGroups_eq]
  apply registerExpertGroups_blocks
  rw [one_mul, Nat.div_mul_cancel hdvd]

theorem consistent_alone {sp : List (List Nat)} (hsp : PartitionInto worldSize spSize sp) :
    ParallelGroups.Consistent ⟨sp, alone worldSize, [range worldSize]⟩ worldSize spSize 1 := by
  have h := consistent_consecutive hsp (Nat.one_dvd worldSize)
  rwa [Nat.div_one, ← alone_eq, intraNodeEpReplicaGroups_eq, ← range_eq_classes] at h

theorem standard_layout (hb : b.Documented) (hone : spSize ≤ 1 ∨ epSize ≤ 1) (hsp : 0 < spSize)
    (hep : 0 < epSize) (hspdvd : spSize ∣ worldSize) (hepdvd : epSize ∣ worldSize) :
    ∃ g, buildGroups b .standard worldSize spSize epSize gpusPerNode = some g ∧
      g.Consistent worldSize spSize epSize := by
  by_cases hsp1 : spSize = 1
  · subst hsp1
    rw [buildGroups, if_pos rfl, setupReplicatedExpertGroups]
    by_cases hep1 : 1 < epSize
    · rw [if_pos hep1, hb.replicated worldSize epSize hep1 hepdvd]
      exact ⟨_, rfl, consistent_consecutive (alone_partition worldSize) hepdvd⟩
    · have hep1 : epSize = 1 := by omega
      subst hep1
      exact ⟨_, rfl, consistent_alone (alone_partition worldSize)⟩
  · have hep1 : epSize = 1 := by omega
    subst hep1
    rw [buildGroups, if_neg hsp1, hb.sequence worldSize spSize (by omega) hspdvd]
    exact ⟨_, rfl, consistent_alone (consecutive_partition hspdvd)⟩

theorem epGroups_consecutive (hgpus : 0 < gpusPerNode) (hnodes : gpusPerNode ∣ worldSize)
    (hep : 0 < epSize) (hfit : epSize ∣ gpusPerNode) :
    epGroups worldSize epSize gpusPerNode = blocks 1 (worldSize / epSize) epSize := by
  obtain ⟨spPerNode, rfl⟩ := hfit
  obtain ⟨nodes, rfl⟩ := hnodes
  have hper : 0 < spPerNode := Nat.pos_of_mul_pos_left hgpus
  have hcount : epSize * spPerNode * nodes / epSize = nodes * spPerNode := by
    rw [mul_assoc, Nat.mul_div_cancel_left _ hep, mul_comm]
  rw [hcount, mul_comm (epSize * spPerNode), mul_comm epSize, epGroups_eq hep hper]

/-- Node-local experts. -/
theorem nodeLocal_layout
    (hshape : Topology.Shape worldSize spSize epSize gpusPerNode .nodeLocal) :
    ∃ g, buildGroups b .nodeLocal worldSize spSize epSize gpusPerNode = some g ∧
      ParallelLayout .nodeLocal worldSize spSize epSize gpusPerNode g := by
  obtain ⟨hsp, hep, hspdvd, hquot, hgpus, hnodes, hfit⟩ := hshape
  have hep0 : 0 < epSize := by omega
  have hsp0 : 0 < spSize := by omega
  have hepgroups := epGroups_consecutive hgpus hnodes hep0 hfit
  have hepdvd : epSize ∣ worldSize := hfit.trans hnodes
  obtain ⟨spPerNode, rfl⟩ := hfit
  rw [mul_comm epSize] at hgpus hnodes hepgroups ⊢
  have hper : 0 < spPerNode := Nat.pos_of_mul_pos_right hgpus
  -- the slots of one expert position are a number of full sequence groups
  obtain ⟨k, hk⟩ := hquot
  have hworld : worldSize = epSize * (k * spSize) := by
    rw [← Nat.div_mul_cancel hspdvd, hk, mul_assoc]
  have hspgroups : spGroups worldSize epSize (spPerNode * epSize) spSize =
      blocks epSize k spSize := by
    obtain ⟨nodes, hnodes⟩ := hnodes
    have hslots : nodes * spPerNode = k * spSize := by
      apply Nat.eq_of_mul_eq_mul_left hep0
      rw [← hworld, hnodes]
      ring
    rw [hnodes, mul_comm (spPerNode * epSize), spGroups_eq hep0 hper hsp0 hslots]
  have hpartition : PartitionInto worldSize spSize (blocks epSize k spSize) := by
    rw [hworld]
    exact blocks_partition epSize k spSize
  have hplaced : ((range worldSize).all fun rank =>
      (registered (blocks epSize k spSize) rank).isSome) = true := by
    rw [all_eq_true]
    intro rank hrank
    have hmem := hpartition.perm.mem_iff.mpr hrank
    rw [mem_flatten] at hmem
    obtain ⟨g, -, -, hreg⟩ := registered_of_mem hmem
    rw [hreg, Option.isSome_some]
  refine ⟨⟨blocks epSize k spSize, blocks 1 (worldSize / epSize) epSize,
    intraNodeEpReplicaGroups worldSize epSize⟩, ?_, ?_⟩
  · rw [buildGroups, if_neg (by omega)]
    simp only [setupNodeLocalGroups, hspgroups, hepgroups, hplaced, if_true,
      registerExpertGroups_consecutive _ hepdvd]
  · refine ⟨consistent_consecutive hpartition hepdvd, ?_, by simp, ?_⟩
    · intro _
      exact blocks_within_node hep0
    · intro _
      rw [hworld]
      exact dataPlane_coordinates hep0 hsp0

theorem decoupled_layout (hb : b.Documented)
    (hshape : Topology.Shape worldSize spSize epSize gpusPerNode .decoupled)
    (hspdvd : spSize ∣ worldSize) :
    ∃ g, buildGroups b .decoupled worldSize spSize epSize gpusPerNode = some g ∧
      ParallelLayout .decoupled worldSize spSize epSize gpusPerNode g := by
  obtain ⟨hsp, hep, hgpus, hnodes, hfit⟩ := hshape
  have hep0 : 0 < epSize := by omega
  have hepdvd : epSize ∣ worldSize := hfit.trans hnodes
  have hgroups : intraNodeEpGroups worldSize epSize gpusPerNode =
      blocks 1 (worldSize / epSize) epSize := epGroups_consecutive hgpus hnodes hep0 hfit
  obtain ⟨spPerNode, rfl⟩ := hfit
  refine ⟨_, ?_, consistent_consecutive (consecutive_partition hspdvd) hepdvd, ?_, by simp, by simp⟩
  · rw [buildGroups, if_neg (by omega), hb.sequence worldSize spSize hsp hspdvd, hgroups]
    exact registerExpertGroups_consecutive _ hepdvd
  · intro _
    rw [mul_comm]
    exact blocks_within_node hep0

theorem hostComplete_layout (hb : b.Documented)
    (hshape : Topology.Shape worldSize spSize epSize gpusPerNode .hostComplete) :
    ∃ g, buildGroups b .hostComplete worldSize spSize epSize gpusPerNode = some g ∧
      ParallelLayout .hostComplete worldSize spSize epSize gpusPerNode g := by
  obtain ⟨hsp, hep, hspdvd, hepdvd, hgpus, hnodes⟩ := hshape
  have hep0 : 0 < epSize := by omega
  have hgroups : hostCompleteEpGroups worldSize epSize = blocks 1 (worldSize / epSize) epSize := by
    rw [← hostCompleteEpGroups_eq hep0, Nat.div_mul_cancel hepdvd]
  refine ⟨_, ?_, consistent_consecutive (consecutive_partition hspdvd) hepdvd, by simp, ?_, by simp⟩
  · rw [buildGroups, if_neg (by omega), hb.sequence worldSize spSize hsp hspdvd, hgroups]
    exact registerExpertGroups_consecutive _ hepdvd
  · intro _
    exact blocks_whole_nodes hep0 hnodes

theorem orthogonal_layout (hb : b.Documented)
    (hshape : Topology.Shape worldSize spSize epSize gpusPerNode .orthogonal) :
    ∃ g, buildGroups b .orthogonal worldSize spSize epSize gpusPerNode = some g ∧
      ParallelLayout .orthogonal worldSize spSize epSize gpusPerNode g := by
  obtain ⟨hsp, hep, hspdvd, hquot⟩ := hshape
  have hworld : worldSize = spSize * (worldSize / spSize / epSize * epSize) := by
    rw [Nat.div_mul_cancel hquot, Nat.mul_div_cancel' hspdvd]
  have hconsistent := consistent_blocks (consecutive_partition hspdvd) hworld
  refine ⟨_, ?_, hconsistent, by simp, by simp, by simp⟩
  · rw [buildGroups, if_neg (by omega), hb.sequence worldSize spSize hsp hspdvd,
      hb.model worldSize spSize epSize hsp hep hspdvd hquot]
    exact registerExpertGroups_blocks _ hworld

/-- For a shape that the resolver accepts, the groups of its topology are built, cut the
ranks evenly and have what the topology promises exactly when both degrees divide the
world size. -/
theorem parallel_layout_iff {epGroupLayout : Option String} {t : Topology} (hb : b.Documented)
    (hsp : 0 < spSize) (hep : 0 < epSize)
    (h : resolveEpGroupTopology worldSize spSize epSize gpusPerNode epGroupLayout = .ok t) :
    (∃ g, buildGroups b t worldSize spSize epSize gpusPerNode = some g ∧
        ParallelLayout t worldSize spSize epSize gpusPerNode g) ↔
      spSize ∣ worldSize ∧ epSize ∣ worldSize := by
  constructor
  · intro hlayout
    obtain ⟨g, -, hg⟩ := hlayout
    exact ⟨hg.consistent.sp_partition.dvd, hg.consistent.ep_partition.dvd⟩
  · intro hdvd
    have hshape := resolve_shape h
    cases t with
    | standard =>
      obtain ⟨g, hg, hconsistent⟩ := standard_layout hb hshape hsp hep hdvd.1 hdvd.2
      exact ⟨g, hg, hconsistent, by simp, by simp, by simp⟩
    | orthogonal => exact orthogonal_layout hb hshape
    | nodeLocal => exact nodeLocal_layout hshape
    | decoupled => exact decoupled_layout hb hshape hdvd.1
    | hostComplete => exact hostComplete_layout hb hshape

end Accepted

/-- Builders that refuse sizes that do not divide. -/
def refusingBuilders : Builders where
  initializeSequenceParallel worldSize spSize :=
    if worldSize % spSize = 0 then some (blocks 1 (worldSize / spSize) spSize) else none
  createExpertAndDataParallel worldSize epSize :=
    if worldSize % epSize = 0 then
      some (blocks 1 (worldSize / epSize) epSize, classes worldSize epSize fun rank => rank % epSize)
    else none
  createExpertDataAndModelParallel worldSize spSize epSize :=
    if worldSize % spSize = 0 ∧ worldSize / spSize % epSize = 0 then
      some (blocks spSize (worldSize / spSize / epSize) epSize)
    else none

theorem refusingBuilders_documented : refusingBuilders.Documented := by
  constructor
  · intro worldSize spSize _ hsp
    exact if_pos (Nat.mod_eq_zero_of_dvd hsp)
  · intro worldSize epSize _ hep
    exact if_pos (Nat.mod_eq_zero_of_dvd hep)
  · intro worldSize spSize epSize _ _ hsp hquot
    exact if_pos ⟨Nat.mod_eq_zero_of_dvd hsp, Nat.mod_eq_zero_of_dvd hquot⟩

/-- Four nodes of eight devices with sequence groups over two nodes. -/
theorem parallel_layout_iff_two_node_groups :
    (∃ g, buildGroups refusingBuilders .nodeLocal 32 8 2 8 = some g ∧
        ParallelLayout .nodeLocal 32 8 2 8 g) ↔ 8 ∣ 32 ∧ 2 ∣ 32 :=
  parallel_layout_iff refusingBuilders_documented (by decide) (by decide)
    (show resolveEpGroupTopology 32 8 2 8 none = .ok .nodeLocal by decide)

/-- The packed layout accepts a sequence degree of three on eight ranks. -/
theorem packed_ragged_shape :
    resolveEpGroupTopology 8 3 2 4 (some "packed") = .ok .decoupled ∧
      ∀ b : Builders, ¬∃ g, buildGroups b .decoupled 8 3 2 4 = some g ∧
        ParallelLayout .decoupled 8 3 2 4 g := by
  refine ⟨by decide, ?_⟩
  intro b h
  obtain ⟨g, -, hg⟩ := h
  have hdvd := hg.consistent.sp_partition.dvd
  omega

end ArcticPlatform.Parallel
