import ArcticPlatform.Library.Dict
import ArcticPlatform.Library.NestedViews

/-!
# Zeroing blocks of KV tensors

An embedding of the constructor of `KVBlockZeroerPatch`.  The axes of each tensor are divided
into outer ones, which are enumerated, and inner ones, which are zeroed as one stretch; equal addresses
of several tensors become one segment.

Main results:

- Theorem `mem_segments_iff`: the segments are the kernel pages of the tensors.
- Theorem `Tensor.covers_of_holds`: the pages of a block contain its elements.
- Theorem `Tensor.not_covers_of_holds`: they contain no element of another block of a nested tensor.
- Theorem `Tensor.not_covers_of_apart`: nor of another block of a tensor apart from it.
- Theorem `zeroes_exactly_one_block`: what the segments of a block contain, for all tensors.
-/

namespace ArcticPlatform.HybridState

open StridedViews Dicts Results Meshes List

variable {δ ν : Type}

/-! ## The tensors -/

/-- What the constructor reads of a tensor: dimension 0 is that of the kernel blocks, and strides count
elements. -/
structure Tensor (δ : Type) where
  device : δ
  dataPtr : Nat
  elementSize : Nat
  blocks : Axis
  axes : List Axis
  elementSize_pos : 0 < elementSize

/-- What the constructor reads of an attention group. -/
structure Group (δ ν : Type) where
  /-- The spec is one of attention or Mamba. -/
  hasSpec : Bool
  kvCacheGroupId : Nat
  blockSize : Nat
  layerNames : List ν
  /-- `map_kv_cache_to_manager_blocks`, where there is a `kernel_block_stride`. -/
  mapToManagerBlocks : Option (Tensor δ → Nat → Tensor δ)

/-- An axis with its stride in bytes. -/
def inBytes (elementSize : Nat) (a : Axis) : Axis := ⟨a.size, a.stride * elementSize⟩

namespace Tensor

variable (t : Tensor δ)

def blockStrideBytes : Nat := t.blocks.stride * t.elementSize

def outerAxes : List Axis := t.axes.filter (t.blockStrideBytes < ·.stride * t.elementSize)

def innerAxes : List Axis := t.axes.filter fun a => !decide (t.blockStrideBytes < a.stride * t.elementSize)

def kernelPageBytes : Int :=
  t.elementSize + (t.innerAxes.map fun a => ((a.size : Int) - 1) * a.stride * t.elementSize).sum

/-- The values of `offset_bytes`. -/
def offsets : List Nat := addresses (t.outerAxes.map (inBytes t.elementSize))

end Tensor

/-! ## The constructor -/

/-- A division by zero is told from a failed assertion. -/
inductive Failure where
  | assertion
  | zeroDivision
  deriving DecidableEq

/-- A segment: its address, and its block stride and page size in units of four bytes. -/
structure Segment where
  address : Nat
  blockStride : Nat
  pageSize : Int

/-- One address: the page of a known one grows, a new one is appended. -/
def addSegment (segs : Dict Nat Segment) (seg : Segment) : Except Failure (Dict Nat Segment) :=
  match segs.get? seg.address with
  | some known =>
    if known.blockStride = seg.blockStride then
      .ok (segs.set seg.address { known with pageSize := max known.pageSize seg.pageSize })
    else .error .assertion
  | none => .ok (segs.set seg.address seg)

/-- The segment of a kernel block of each logical block. -/
def Tensor.segment (t : Tensor δ) (ratio offset virtualIndex : Nat) : Segment where
  address := t.dataPtr + offset + virtualIndex * t.blockStrideBytes
  blockStride := t.blockStrideBytes * ratio / 4
  pageSize := t.kernelPageBytes / 4

/-- The body of the loop over tensors. -/
def addTensor (numBlocks : Nat) (segs : Dict Nat Segment) (t : Tensor δ) :
    Except Failure (Dict Nat Segment) :=
  if numBlocks = 0 then .error .zeroDivision
  else if t.blocks.size % numBlocks ≠ 0 ∨ t.blockStrideBytes % 4 ≠ 0 then .error .assertion
  else if t.blocks.size / numBlocks = 0 then .error .zeroDivision
  else if t.blocks.size % (t.blocks.size / numBlocks) ≠ 0 ∨ t.kernelPageBytes % 4 ≠ 0 then
    .error .assertion
  else
    t.offsets.foldlM (fun segs offset =>
      if (t.dataPtr + offset) % 4 ≠ 0 then .error .assertion
      else
        (List.range (t.blocks.size / numBlocks)).foldlM (fun segs v =>
          addSegment segs (t.segment (t.blocks.size / numBlocks) offset v)) segs) segs

/-- The tensors that the loops over groups, layers and caches arrive at. -/
def tensorsOf [DecidableEq δ] [DecidableEq ν] (device : δ) (groups : List (Group δ ν))
    (kernelBlockSizes : List Nat) (kvCache : ν → List (Option (Tensor δ))) (numBlocks : Nat)
    (runnerOnly : List ν) : Except Failure (List (Tensor δ)) := do
  let found ← (groups.filter (·.hasSpec)).mapM fun group =>
    match kernelBlockSizes[group.kvCacheGroupId]? with
    | none => .ok []
    | some 0 => .error .zeroDivision
    | some kernelBlockSize =>
      if group.blockSize % kernelBlockSize ≠ 0 then .error .assertion
      else
        .ok <| (group.layerNames.filter (· ∉ runnerOnly)).flatMap fun layer =>
          ((kvCache layer).filterMap fun kv =>
            kv.map fun kv => (group.mapToManagerBlocks.elim kv fun f => f kv numBlocks)).filter
              (·.device = device)
  .ok found.flatten

/-- The segments that the constructor makes. -/
def segmentsOf (numBlocks : Nat) (tensors : List (Tensor δ)) : Except Failure (Dict Nat Segment) :=
  tensors.foldlM (addTensor numBlocks) Dict.empty

/-- The constructor, up to the parameters of the launch. -/
def constructSegments [DecidableEq δ] [DecidableEq ν] (device : δ) (groups : List (Group δ ν))
    (kernelBlockSizes : List Nat) (kvCache : ν → List (Option (Tensor δ))) (numBlocks : Nat)
    (runnerOnly : List ν) : Except Failure (Dict Nat Segment) := do
  let tensors ← tensorsOf device groups kernelBlockSizes kvCache numBlocks runnerOnly
  segmentsOf numBlocks tensors

/-! ## Elements and pages -/

/-- The byte is in the range that is zeroed for a block. -/
def Segment.Contains (seg : Segment) (b x : Nat) : Prop :=
  seg.address + b * (seg.blockStride * 4) ≤ x ∧
    (x : Int) < (seg.address + b * (seg.blockStride * 4) : Nat) + seg.pageSize * 4

namespace Tensor

variable (t : Tensor δ) (numBlocks : Nat)

/-- Kernel blocks of one logical block. -/
def ratio : Nat := t.blocks.size / numBlocks

/-- The byte is one of an element of a logical block. -/
def Holds (b x : Nat) : Prop :=
  ∃ v < t.ratio numBlocks, ∃ y ∈ addresses t.axes, ∃ j < t.elementSize,
    x = t.dataPtr + ((b * t.ratio numBlocks + v) * t.blocks.stride + y) * t.elementSize + j

/-- The byte is in one of the kernel pages of a logical block. -/
def Covers (b x : Nat) : Prop :=
  ∃ v < t.ratio numBlocks, ∃ y ∈ addresses t.outerAxes,
    t.dataPtr + ((b * t.ratio numBlocks + v) * t.blocks.stride + y) * t.elementSize ≤ x ∧
      (x : Int) < (t.dataPtr + ((b * t.ratio numBlocks + v) * t.blocks.stride + y) * t.elementSize : Nat) +
        t.kernelPageBytes

/-- In some order of its dimensions, each stride is at least the extent of those further in. -/
def IsNested : Prop := ∃ axes, axes.Perm (t.blocks :: t.axes) ∧ Nested axes

/-- The bytes from one logical block to the next. -/
def logicalStrideBytes : Nat := t.blockStrideBytes * t.ratio numBlocks

/-- The extent of a logical block in bytes, at one index of the outer dimensions. -/
def logicalPageBytes : Int := ((t.ratio numBlocks : Int) - 1) * t.blockStrideBytes + t.kernelPageBytes

/-- Two stretches of blocks, by their starts and the strides and extents of their blocks, do not meet,
or they have one stride and the blocks of each index lie in one slot of that length. -/
def StretchesApart (numBlocks start start' stride stride' : Nat) (page page' : Int) : Prop :=
  start + (numBlocks - 1 : Int) * stride + page ≤ start' ∨
    start' + (numBlocks - 1 : Int) * stride' + page' ≤ start ∨
    stride = stride' ∧ max (start + page) (start' + page') ≤ min start start' + stride

/-- The stretches of two tensors, at all indices of their outer dimensions, are apart. -/
def Apart (t' : Tensor δ) : Prop :=
  ∀ y ∈ t.offsets, ∀ y' ∈ t'.offsets,
    StretchesApart numBlocks (t.dataPtr + y) (t'.dataPtr + y') (t.logicalStrideBytes numBlocks)
      (t'.logicalStrideBytes numBlocks) (t.logicalPageBytes numBlocks) (t'.logicalPageBytes numBlocks)

instance (t' : Tensor δ) : Decidable (t.Apart numBlocks t') := by
  unfold Apart StretchesApart
  infer_instance

theorem kernelPageBytes_eq : t.kernelPageBytes = t.elementSize * extent t.innerAxes := by
  have hsum : ∀ axes : List Axis, (t.elementSize : Int) +
      (axes.map fun a => ((a.size : Int) - 1) * a.stride * t.elementSize).sum =
        t.elementSize * extent axes := by
    intro axes
    induction axes with
    | nil => simp [extent]
    | cons a axes ih =>
      rw [map_cons, sum_cons, extent, mul_add, ← ih]
      ring
  exact hsum t.innerAxes

theorem offsets_eq : t.offsets = (addresses t.outerAxes).map (· * t.elementSize) := by
  have hmap : ∀ axes : List Axis,
      addresses (axes.map (inBytes t.elementSize)) = (addresses axes).map (· * t.elementSize) := by
    intro axes
    induction axes with
    | nil => simp [addresses]
    | cons a axes ih =>
      rw [map_cons, addresses, addresses, ih, map_flatMap]
      simp only [map_map, Function.comp_def, inBytes, add_mul, mul_assoc]
  exact hmap t.outerAxes

theorem axes_perm : (t.outerAxes ++ t.innerAxes).Perm t.axes := filter_append_perm _ _

/-- The pages of a block contain its elements. -/
theorem covers_of_holds {b x : Nat} (h : t.Holds numBlocks b x) : t.Covers numBlocks b x := by
  obtain ⟨v, hv, y, hy, j, hj, rfl⟩ := h
  obtain ⟨o, ho, i, hi, rfl⟩ := mem_addresses_append.mp ((addresses_perm t.axes_perm).mem_iff.mpr hy)
  have hext := lt_extent hi
  refine ⟨v, hv, o, ho, ?_, ?_⟩
  · nlinarith [Nat.zero_le (i * t.elementSize)]
  · rw [kernelPageBytes_eq]
    have hpage : ((i : Int) + 1) * t.elementSize ≤ extent t.innerAxes * t.elementSize :=
      mul_le_mul_of_nonneg_right (by omega) (by omega)
    push_cast
    nlinarith

theorem StretchesApart.blocks {numBlocks start start' stride stride' b b' : Nat}
    {page page' x : Int}
    (h : StretchesApart numBlocks start start' stride stride' page page') (hb : b < numBlocks)
    (hb' : b' < numBlocks) (hne : b ≠ b')
    (hx : (start + b * stride : Int) ≤ x ∧ x < start + b * stride + page) :
    ¬((start' + b' * stride' : Int) ≤ x ∧ x < start' + b' * stride' + page') := by
  rintro ⟨hlow', hhigh'⟩
  obtain ⟨hlow, hhigh⟩ := hx
  have hlast : ∀ {b : Nat} (n : Nat), b < numBlocks → (b : Int) * n ≤ (numBlocks - 1 : Int) * n :=
    fun n hb => mul_le_mul_of_nonneg_right (by omega) (by omega)
  have hfirst : ∀ b n : Nat, (0 : Int) ≤ b * n := fun b n => mul_nonneg (by omega) (by omega)
  rcases h with hle | hle | ⟨rfl, hle⟩
  · linarith [hlast stride hb, hfirst b' stride']
  · linarith [hlast stride' hb', hfirst b stride]
  · -- The block with the smaller index ends before the slot of the other one begins.
    have hnext : ∀ {b b' : Nat}, b < b' → (b : Int) * stride + stride ≤ b' * stride := by
      intro b b' hlt
      have hmul : ((b : Int) + 1) * stride ≤ b' * stride :=
        mul_le_mul_of_nonneg_right (by omega) (by omega)
      linarith
    rw [max_le_iff, Nat.cast_min] at hle
    have hmin := min_le_left (start : Int) start'
    have hmin' := min_le_right (start : Int) start'
    rcases lt_or_gt_of_ne hne with hlt | hlt
    · linarith [hnext hlt, hle.1]
    · linarith [hnext hlt, hle.2]

/-- The pages of a logical block lie between its start and its end, at an index of the outer
dimensions. -/
theorem covers_bounds {b x : Nat} (h : t.Covers numBlocks b x) :
    ∃ y ∈ t.offsets, ((t.dataPtr + y : Nat) + b * t.logicalStrideBytes numBlocks : Int) ≤ x ∧
      (x : Int) < (t.dataPtr + y : Nat) + b * t.logicalStrideBytes numBlocks +
        t.logicalPageBytes numBlocks := by
  obtain ⟨v, hv, o, ho, hlow, hhigh⟩ := h
  refine ⟨o * t.elementSize, t.offsets_eq ▸ mem_map_of_mem ho, ?_⟩
  have hfirst : (0 : Int) ≤ v * (t.blocks.stride * t.elementSize) := mul_nonneg (by omega) (by positivity)
  have hlast : (v : Int) * (t.blocks.stride * t.elementSize) ≤
      (t.ratio numBlocks - 1 : Int) * (t.blocks.stride * t.elementSize) :=
    mul_le_mul_of_nonneg_right (by omega) (by positivity)
  zify at hlow
  push_cast at hhigh
  simp only [logicalStrideBytes, logicalPageBytes, blockStrideBytes]
  push_cast
  constructor <;> linarith

/-- The pages of a block of one tensor contain no element of another block of one apart from it. -/
theorem not_covers_of_apart {t' : Tensor δ} (hapart : t.Apart numBlocks t') {b b' x : Nat}
    (hb : b < numBlocks) (hb' : b' < numBlocks) (hne : b ≠ b') (h : t'.Holds numBlocks b' x) :
    ¬t.Covers numBlocks b x := by
  intro hcovers
  obtain ⟨y, hy, hx⟩ := t.covers_bounds numBlocks hcovers
  obtain ⟨y', hy', hx'⟩ := t'.covers_bounds numBlocks (t'.covers_of_holds numBlocks h)
  exact (hapart y hy y' hy').blocks hb hb' hne hx hx'

section Nested

variable {t} {numBlocks} {above below : List Axis}

/-- Where there are two kernel blocks, the dimensions above that of the kernel blocks are the outer ones
and those below it are the inner ones, but for dimensions of one index. -/
theorem sizes_of_nested (hperm : t.axes.Perm (above ++ below)) (h : Nested (above ++ t.blocks :: below))
    (hpos : ∀ a ∈ t.axes, 0 < a.size) (htwo : 1 < t.blocks.size) :
    (∀ a ∈ above, t.blockStrideBytes < a.stride * t.elementSize) ∧
      ∀ a ∈ below, t.blockStrideBytes < a.stride * t.elementSize → a.size = 1 := by
  have habove : ∀ a ∈ above, 0 < a.size := fun a ha =>
    hpos a (hperm.mem_iff.mpr (mem_append_left _ ha))
  have hbelow : ∀ a ∈ below, 0 < a.size := fun a ha =>
    hpos a (hperm.mem_iff.mpr (mem_append_right _ ha))
  constructor
  · intro a ha
    have hle := h.extent_le_stride habove ha
    have hlt : (t.blocks.stride : Int) < extent (t.blocks :: below) :=
      stride_lt_extent (forall_mem_cons.mpr ⟨Nat.zero_lt_of_lt htwo, hbelow⟩) mem_cons_self htwo
    exact Nat.mul_lt_mul_of_pos_right (by omega) t.elementSize_pos
  · intro a ha hout
    by_contra hsize
    have hlt := stride_lt_extent hbelow ha (by have := hbelow a ha; omega)
    have hle := h.of_append.1
    have hstride : t.blocks.stride < a.stride := Nat.lt_of_mul_lt_mul_right hout
    omega

/-- The pages of a block contain no element of another block of a nested tensor. -/
theorem not_covers_of_holds (hnested : t.IsNested) (hdvd : t.blocks.size % numBlocks = 0) {b b' x : Nat}
    (hb : b < numBlocks) (hb' : b' < numBlocks) (hne : b ≠ b') (h : t.Holds numBlocks b' x) :
    ¬t.Covers numBlocks b x := by
  rintro ⟨v, hv, o, ho, hlow, hhigh⟩
  obtain ⟨v', hv', y, hy, j, hj, rfl⟩ := h
  obtain ⟨axes, hperm, hsorted⟩ := hnested
  obtain ⟨above, below, rfl⟩ := append_of_mem (hperm.mem_iff.mpr mem_cons_self)
  have hrest : t.axes.Perm (above ++ below) := (hperm.symm.trans perm_middle).cons_inv
  have hpos := size_pos_of_mem hy
  -- The two kernel blocks.
  have hindex : ∀ {b v : Nat}, b < numBlocks → v < t.ratio numBlocks →
      b * t.ratio numBlocks + v < t.blocks.size := by
    intro b v hb hv
    have hsize : t.ratio numBlocks * numBlocks = t.blocks.size :=
      Nat.div_mul_cancel (Nat.dvd_of_mod_eq_zero hdvd)
    have hle : (b + 1) * t.ratio numBlocks ≤ numBlocks * t.ratio numBlocks := Nat.mul_le_mul_right _ hb
    linarith
  have hk := hindex hb hv
  have hk' := hindex hb' hv'
  have hkne : b * t.ratio numBlocks + v ≠ b' * t.ratio numBlocks + v' := fun heq =>
    hne (((digits_iff hv).mp heq).1.symm.trans ((digits_iff hv').mp rfl).1)
  obtain ⟨habove, hbelow⟩ := sizes_of_nested hrest hsorted hpos (by omega)
  -- The outer and the inner dimensions, in the order of nesting.
  let p : Axis → Bool := fun a => t.blockStrideBytes < a.stride * t.elementSize
  have hout : above.filter p = above := filter_eq_self.mpr fun a ha => by simpa [p] using habove a ha
  have hin : above.filter (fun a => !p a) = [] :=
    filter_eq_nil_iff.mpr fun a ha => by simpa [p] using habove a ha
  have ho' : o ∈ addresses above := by
    have houter : t.outerAxes.Perm (above ++ below.filter p) := by
      have hfilter := hrest.filter p
      rwa [filter_append, hout] at hfilter
    obtain ⟨o₁, ho₁, z, hz, rfl⟩ := mem_addresses_append.mp ((addresses_perm houter).mem_iff.mp ho)
    have hone : addresses (below.filter p) = addresses [] := by
      refine (addresses_filter (p := fun _ => false) fun a ha _ => ?_).symm.trans
        (by simp)
      obtain ⟨ha, hpa⟩ := mem_filter.mp ha
      exact hbelow a ha (by simpa [p] using hpa)
    rw [hone, addresses, mem_singleton] at hz
    rwa [hz]
  have hext : extent t.innerAxes = extent below := by
    have hinner : t.innerAxes.Perm (below.filter fun a => !p a) := by
      have hfilter := hrest.filter fun a => !p a
      rwa [filter_append, hin] at hfilter
    rw [extent_perm hinner]
    exact extent_filter fun a ha hpa => hbelow a ha (by simpa [p] using hpa)
  obtain ⟨o', hy', i, hi, rfl⟩ := mem_addresses_append.mp ((addresses_perm hrest).mem_iff.mp hy)
  have hlt := lt_extent hi
  rw [kernelPageBytes_eq, hext] at hhigh
  have hscale : ∀ {m n : Int}, m ≤ n → m * t.elementSize ≤ n * t.elementSize := fun hle =>
    mul_le_mul_of_nonneg_right hle (by omega)
  push_cast at hlow hhigh
  rcases hsorted.apart_of_index ho' hy' hk hk' hkne with hle | hle
  · have hle' := hscale hle
    have hi' := hscale (show (0 : Int) ≤ i by omega)
    push_cast at hle'
    linarith
  · have hle' := hscale hle
    have hi' := hscale (show (i : Int) + 1 ≤ extent below by omega)
    push_cast at hle'
    zify at hlow
    linarith

end Nested

end Tensor

/-! ## The segments -/

/-- The segments have each page under its address, and no others. -/
structure Collected (pages : List Segment) (segs : Dict Nat Segment) : Prop where
  page : ∀ p ∈ pages, ∃ seg, segs.get? p.address = some seg ∧ seg.blockStride = p.blockStride ∧
    p.pageSize ≤ seg.pageSize
  seg : ∀ a seg, segs.get? a = some seg → seg.address = a ∧ seg ∈ pages

theorem Collected.addSegment {pages : List Segment} {segs segs' : Dict Nat Segment} {p : Segment}
    (h : Collected pages segs) (hadd : addSegment segs p = .ok segs') : Collected (pages ++ [p]) segs' := by
  have hset : ∀ new : Segment, new.address = p.address → new ∈ pages ++ [p] →
      new.blockStride = p.blockStride → p.pageSize ≤ new.pageSize →
      (∀ known, segs.get? p.address = some known →
        new.blockStride = known.blockStride ∧ known.pageSize ≤ new.pageSize) →
      Collected (pages ++ [p]) (segs.set p.address new) := by
    intro new haddress hnew hstride hsize hknown
    refine ⟨fun q hq => ?_, fun a seg ha => ?_⟩
    · by_cases hqp : q.address = p.address
      · refine ⟨new, by rw [hqp, Dict.get?_set_self], ?_⟩
        rcases mem_append.mp hq with hold | hone
        · obtain ⟨seg, hseg, hblock, hpage⟩ := h.page q hold
          have hk := hknown seg (hqp ▸ hseg)
          exact ⟨hk.1.trans hblock, hpage.trans hk.2⟩
        · rw [mem_singleton.mp hone]
          exact ⟨hstride, hsize⟩
      · rw [Dict.get?_set_ne _ hqp]
        refine h.page q ((mem_append.mp hq).resolve_right fun hone => hqp ?_)
        rw [mem_singleton.mp hone]
    · rw [Dict.get?_set] at ha
      split_ifs at ha with hap
      · cases ha
        exact ⟨haddress.trans hap.symm, hnew⟩
      · exact ⟨(h.seg a seg ha).1, mem_append_left _ (h.seg a seg ha).2⟩
  rw [HybridState.addSegment] at hadd
  cases hget : segs.get? p.address with
  | none =>
    rw [hget] at hadd
    cases hadd
    refine hset p rfl (mem_append_right _ mem_cons_self) rfl le_rfl fun known hknown => ?_
    rw [hget] at hknown
    cases hknown
  | some known =>
    rw [hget] at hadd
    dsimp only at hadd
    split_ifs at hadd with hstride
    cases hadd
    obtain ⟨haddress, hmem⟩ := h.seg _ _ hget
    refine hset { known with pageSize := max known.pageSize p.pageSize } haddress ?_ hstride
      (le_max_right _ _) fun known' hknown' => ?_
    · rcases max_choice known.pageSize p.pageSize with hmax | hmax
      · rw [hmax]
        exact mem_append_left _ hmem
      · rw [hmax, haddress, hstride]
        exact mem_append_right _ mem_cons_self
    · rw [hget] at hknown'
      cases hknown'
      exact ⟨rfl, le_max_left _ _⟩

/-- The pages that the loop over one tensor adds. -/
def Tensor.pages (t : Tensor δ) (numBlocks : Nat) : List Segment :=
  t.offsets.flatMap fun offset =>
    (List.range (t.ratio numBlocks)).map (t.segment (t.ratio numBlocks) offset)

/-- What the assertions say of a tensor. -/
structure Tensor.Fits (t : Tensor δ) (numBlocks : Nat) : Prop where
  blocks : t.blocks.size % numBlocks = 0
  stride : t.blockStrideBytes % 4 = 0
  page : t.kernelPageBytes % 4 = 0

variable {numBlocks : Nat}

theorem Collected.addTensor {pages : List Segment} {segs segs' : Dict Nat Segment} {t : Tensor δ}
    (h : Collected pages segs) (hadd : addTensor numBlocks segs t = .ok segs') :
    Collected (pages ++ t.pages numBlocks) segs' ∧ t.Fits numBlocks := by
  rw [HybridState.addTensor] at hadd
  split_ifs at hadd with hzero hfits hratio hfits'
  refine ⟨?_, ⟨by tauto, by tauto, by tauto⟩⟩
  have hloop := foldlM_invariant (P := fun done s => Collected (pages ++ done.flatMap fun offset =>
    (List.range (t.ratio numBlocks)).map (t.segment (t.ratio numBlocks) offset)) s) (by simpa using h)
    (fun done offset s s' hs hstep => ?_) hadd
  · exact hloop
  · split_ifs at hstep
    have hinner := foldlM_invariant (P := fun vs s => Collected (pages ++ (done.flatMap fun offset =>
      (List.range (t.ratio numBlocks)).map (t.segment (t.ratio numBlocks) offset)) ++
        vs.map (t.segment (t.ratio numBlocks) offset)) s) (by simpa using hs)
      (fun vs v s s' hs hv => by
        rw [map_append, ← append_assoc]
        exact hs.addSegment hv) hstep
    rw [flatMap_append, flatMap_singleton, ← append_assoc]
    exact hinner

theorem collected_segmentsOf {tensors : List (Tensor δ)} {segs : Dict Nat Segment}
    (h : segmentsOf numBlocks tensors = .ok segs) :
    Collected (tensors.flatMap (·.pages numBlocks)) segs ∧ ∀ t ∈ tensors, t.Fits numBlocks := by
  refine foldlM_invariant (P := fun done s => Collected (done.flatMap (·.pages numBlocks)) s ∧
    ∀ t ∈ done, t.Fits numBlocks) ⟨⟨nofun, fun a seg hseg => ?_⟩, nofun⟩
    (fun done t s s' hs hstep => ?_) h
  · rw [Dict.get?_empty] at hseg
    cases hseg
  · obtain ⟨hcollected, hfits⟩ := hs.1.addTensor hstep
    rw [flatMap_append, flatMap_singleton]
    refine ⟨hcollected, fun t' ht' => ?_⟩
    rcases mem_append.mp ht' with hold | hnew
    · exact hs.2 t' hold
    · exact mem_singleton.mp hnew ▸ hfits

theorem Tensor.Fits.covers_iff {t : Tensor δ} (h : t.Fits numBlocks) {b x : Nat} :
    t.Covers numBlocks b x ↔ ∃ p ∈ t.pages numBlocks, p.Contains b x := by
  have hstride : t.blockStrideBytes * t.ratio numBlocks / 4 * 4 = t.blockStrideBytes * t.ratio numBlocks :=
    Nat.div_mul_cancel ((Nat.dvd_of_mod_eq_zero h.stride).mul_right _)
  have hpage : t.kernelPageBytes / 4 * 4 = t.kernelPageBytes :=
    Int.ediv_mul_cancel (Int.dvd_of_emod_eq_zero h.page)
  have hstart : ∀ v y : Nat, (t.segment (t.ratio numBlocks) (y * t.elementSize) v).address +
      b * ((t.segment (t.ratio numBlocks) (y * t.elementSize) v).blockStride * 4) =
        t.dataPtr + ((b * t.ratio numBlocks + v) * t.blocks.stride + y) * t.elementSize := by
    intro v y
    rw [segment, hstride, blockStrideBytes]
    ring
  constructor
  · rintro ⟨v, hv, y, hy, hcover⟩
    refine ⟨t.segment (t.ratio numBlocks) (y * t.elementSize) v, mem_flatMap.mpr
      ⟨_, t.offsets_eq ▸ mem_map_of_mem hy, mem_map_of_mem (mem_range.mpr hv)⟩, ?_⟩
    rw [Segment.Contains, hstart]
    simpa only [segment, hpage] using hcover
  · rintro ⟨p, hp, hcontains⟩
    obtain ⟨offset, hoffset, hp⟩ := mem_flatMap.mp hp
    obtain ⟨v, hv, rfl⟩ := mem_map.mp hp
    rw [offsets_eq] at hoffset
    obtain ⟨y, hy, rfl⟩ := mem_map.mp hoffset
    rw [Segment.Contains, hstart] at hcontains
    refine ⟨v, mem_range.mp hv, y, hy, ?_⟩
    simpa only [segment, hpage] using hcontains

/-- The segments are the kernel pages of the tensors. -/
theorem mem_segments_iff {tensors : List (Tensor δ)} {segs : Dict Nat Segment}
    (h : segmentsOf numBlocks tensors = .ok segs) {b x : Nat} :
    (∃ a seg, segs.get? a = some seg ∧ seg.Contains b x) ↔ ∃ t ∈ tensors, t.Covers numBlocks b x := by
  obtain ⟨hcollected, hfits⟩ := collected_segmentsOf h
  constructor
  · rintro ⟨a, seg, hseg, hcontains⟩
    obtain ⟨t, ht, hp⟩ := mem_flatMap.mp (hcollected.seg a seg hseg).2
    exact ⟨t, ht, (hfits t ht).covers_iff.mpr ⟨seg, hp, hcontains⟩⟩
  · rintro ⟨t, ht, hcovers⟩
    obtain ⟨p, hp, hlow, hhigh⟩ := (hfits t ht).covers_iff.mp hcovers
    obtain ⟨seg, hseg, hstride, hpage⟩ := hcollected.page p (mem_flatMap.mpr ⟨t, ht, hp⟩)
    have haddress := (hcollected.seg _ _ hseg).1
    refine ⟨_, seg, hseg, ?_, ?_⟩
    · rwa [haddress, hstride]
    · rw [haddress, hstride]
      omega

/-! ## One block -/

/-- Where the constructor fails no assertion on nested tensors, the segments of a block contain its elements
in every tensor; where the tensors are apart from each other too, they contain no element of another
block. -/
theorem zeroes_exactly_one_block [DecidableEq δ] [DecidableEq ν] {device : δ} {groups : List (Group δ ν)}
    {kernelBlockSizes : List Nat} {kvCache : ν → List (Option (Tensor δ))} {numBlocks : Nat}
    {runnerOnly : List ν} {tensors : List (Tensor δ)} {segs : Dict Nat Segment}
    (ht : tensorsOf device groups kernelBlockSizes kvCache numBlocks runnerOnly = .ok tensors)
    (h : constructSegments device groups kernelBlockSizes kvCache numBlocks runnerOnly = .ok segs)
    (hnested : ∀ t ∈ tensors, t.IsNested) :
    (∀ b, ∀ t ∈ tensors, ∀ x, t.Holds numBlocks b x →
      ∃ a seg, segs.get? a = some seg ∧ seg.Contains b x) ∧
    ((∀ t ∈ tensors, ∀ t' ∈ tensors, t ≠ t' → t.Apart numBlocks t') →
      ∀ b < numBlocks, ∀ b' < numBlocks, b ≠ b' → ∀ t' ∈ tensors, ∀ x, t'.Holds numBlocks b' x →
        ¬∃ a seg, segs.get? a = some seg ∧ seg.Contains b x) := by
  rw [constructSegments, ht, bind_ok] at h
  have hfits := (collected_segmentsOf h).2
  refine ⟨fun b t ht x hx => (mem_segments_iff h).mpr ⟨t, ht, t.covers_of_holds numBlocks hx⟩, ?_⟩
  intro hapart b hb b' hb' hne t' ht' x hx hseg
  obtain ⟨t, ht, hcovers⟩ := (mem_segments_iff h).mp hseg
  by_cases htt : t = t'
  · subst htt
    exact Tensor.not_covers_of_holds (hnested t ht) (hfits t ht).blocks hb hb' hne hx hcovers
  · exact t.not_covers_of_apart numBlocks (hapart t ht t' ht' htt) hb hb' hne hx hcovers

/-- A family with kernel blocks of two sizes and an outer dimension, over one storage. -/
def sharedStorage : List (Tensor Unit) :=
  [⟨(), 0, 4, ⟨4, 4⟩, [⟨2, 16⟩, ⟨3, 1⟩], by decide⟩, ⟨(), 0, 4, ⟨2, 8⟩, [⟨8, 1⟩, ⟨2, 16⟩], by decide⟩]

theorem zeroes_exactly_one_block_sharedStorage :
    ∃ segs, constructSegments () [⟨true, 0, 2, [0], none⟩] [1] (fun _ : Nat => sharedStorage.map some)
        2 [] = .ok segs ∧ (∀ b, ∀ t ∈ sharedStorage, ∀ x, t.Holds 2 b x →
        ∃ a seg, segs.get? a = some seg ∧ seg.Contains b x) ∧
      ∀ b < 2, ∀ b' < 2, b ≠ b' → ∀ t' ∈ sharedStorage, ∀ x, t'.Holds 2 b' x →
        ¬∃ a seg, segs.get? a = some seg ∧ seg.Contains b x := by
  have ht : tensorsOf () [⟨true, 0, 2, [0], none⟩] [1] (fun _ : Nat => sharedStorage.map some) 2 [] =
      .ok sharedStorage := rfl
  have hnested : ∀ t ∈ sharedStorage, t.IsNested := by
    intro t ht
    rcases mem_cons.mp ht with rfl | ht
    · exact ⟨[⟨2, 16⟩, ⟨4, 4⟩, ⟨3, 1⟩], by decide, by simp [Nested, extent]⟩
    · rw [mem_singleton.mp ht]
      exact ⟨[⟨2, 16⟩, ⟨2, 8⟩, ⟨8, 1⟩], by decide, by simp [Nested, extent]⟩
  have hapart : ∀ t ∈ sharedStorage, ∀ t' ∈ sharedStorage, t ≠ t' → t.Apart 2 t' := by
    have hall : ∀ t ∈ sharedStorage, ∀ t' ∈ sharedStorage, t.Apart 2 t' := by decide
    exact fun t ht t' ht' _ => hall t ht t' ht'
  have hblocks := zeroes_exactly_one_block ht rfl hnested
  exact ⟨_, rfl, hblocks.1, hblocks.2 hapart⟩

/-- Two tensors over one storage, the second of which begins in the middle of a block of the first. -/
def misaligned : List (Tensor Unit) :=
  [⟨(), 0, 4, ⟨2, 4⟩, [⟨4, 1⟩], by decide⟩, ⟨(), 8, 4, ⟨2, 4⟩, [⟨4, 1⟩], by decide⟩]

theorem misaligned_zeroes_two_blocks :
    ¬∀ (tensors : List (Tensor Unit)) (segs : Dict Nat Segment) (numBlocks : Nat),
      constructSegments () [⟨true, 0, 1, [0], none⟩] [1] (fun _ : Nat => tensors.map some) numBlocks [] =
          .ok segs → (∀ t ∈ tensors, t.IsNested) →
        ∀ b < numBlocks, ∀ b' < numBlocks, b ≠ b' → ∀ t' ∈ tensors, ∀ x, t'.Holds numBlocks b' x →
          ¬∃ a seg, segs.get? a = some seg ∧ seg.Contains b x := by
  intro hall
  have hnested : ∀ t ∈ misaligned, t.IsNested := by
    intro t ht
    rcases mem_cons.mp ht with rfl | ht
    · exact ⟨[⟨2, 4⟩, ⟨4, 1⟩], by decide, by simp [Nested, extent]⟩
    · rw [mem_singleton.mp ht]
      exact ⟨[⟨2, 4⟩, ⟨4, 1⟩], by decide, by simp [Nested, extent]⟩
  refine hall misaligned _ 2 rfl hnested 0 (by decide) 1 (by decide) (by decide) _ mem_cons_self 16
    ⟨0, by decide, 0, by decide, 0, by decide, by decide⟩ ⟨8, _, rfl, by decide, by decide⟩

end ArcticPlatform.HybridState
