import ArcticPlatform.Library.Chunks
import ArcticPlatform.Library.Meshes
import Mathlib.Order.Bounds.Basic

/-!
# The padded sizes of CUDA graphs

`_set_cudagraph_sizes` keeps two lists of captured batch sizes, one for the Ulysses
model and one for the shift model, and a table for each that gives the size to which a
batch is padded.  A table is filled by consecutive intervals of the list.  vLLM's own
setup is a parameter that leaves the lists as they are and settles the base maximum.

Main results:

- Theorem `buildBsToPadded_eq`: the table, or the size that does not fit in it.
- Theorem `pads_iff_sorted` and `pads_iff_max_mem`: the tables that pad to the
  next captured size.
- Theorem `padding_iff`: the configurations for which both modes do.
-/

namespace ArcticPlatform.Ulysses

open Meshes List
open Option hiding map_map mem_map mem_map_of_mem

/-! ## The code -/

/-- Python's `range(start, stop, step)`. -/
def rangeStep (start stop step : Nat) : List Nat :=
  (starts (stop - start) step).map (start + ·)

/-- `_generate_capture_sizes`. -/
def generateCaptureSizes (maxSize : Nat) : List Nat :=
  [1, 2, 4].filter (· ≤ maxSize) ++
    (if 8 ≤ maxSize then rangeStep 8 (min (maxSize + 1) 256) 8 else []) ++
    (if 256 ≤ maxSize then rangeStep 256 (min (maxSize + 1) 512) 16 else []) ++
    if 512 ≤ maxSize then rangeStep 512 (maxSize + 1) 32 else []

/-- The inner loop of `_build_bs_to_padded`; `none` is an index error. -/
def fillInterval (table : List Nat) (stop start : Nat) : Option (List Nat) :=
  (range' start (stop - start)).foldlM (fun table bs =>
    if bs < table.length then some (table.set bs (if bs = start then start else stop)) else none) table

/-- `_build_bs_to_padded`. -/
def buildBsToPadded (captureSizes : List Nat) (maxCaptureSize : Nat) : Option (List Nat) :=
  ((captureSizes ++ [maxCaptureSize + 1]).zip (0 :: captureSizes)).foldlM
    (fun table interval => fillInterval table interval.1 interval.2) (replicate (maxCaptureSize + 1) 0)

/-- The two fields of the compilation config. -/
structure CompilationConfig where
  maxCudagraphCaptureSize : Option Nat
  cudagraphCaptureSizes : Option (List Nat)

/-- The sizes that the first half of `_set_cudagraph_sizes` decides: the config, and the sizes
and the maximum of the shift model. -/
def chooseSizes (sp : Nat) (cfg : CompilationConfig) : CompilationConfig × List Nat × Nat :=
  match cfg.cudagraphCaptureSizes with
  | none =>
    let maxSize := cfg.maxCudagraphCaptureSize.getD 512
    let canonical := generateCaptureSizes maxSize
    (⟨some (maxSize * sp), some (canonical.map (· * sp))⟩, canonical, maxSize)
  | some sizes => (cfg, sizes, sizes.foldl max 0)

/-- The sizes, maxima and tables of the two modes. -/
structure CudagraphTables where
  baseSizes : List Nat
  baseMax : Nat
  baseTable : List Nat
  shiftSizes : List Nat
  shiftMax : Nat
  shiftTable : List Nat
  deriving DecidableEq

/-- The table of a list, empty for an empty list. -/
def tableOf (sizes : List Nat) (maxSize : Nat) : Option (List Nat) :=
  if sizes = [] then some [] else buildBsToPadded sizes maxSize

/-- `_set_cudagraph_sizes` around vLLM's setup; `none` is a raised error. -/
def setCudagraphSizes (orig : CompilationConfig → CompilationConfig) (sp : Nat)
    (cfg : CompilationConfig) : Option CudagraphTables := do
  let (cfg, shiftSizes, shiftMax) := chooseSizes sp cfg
  let shiftTable ← tableOf shiftSizes shiftMax
  let baseSizes := (orig cfg).cudagraphCaptureSizes.getD []
  let baseMax ← (orig cfg).maxCudagraphCaptureSize
  let baseTable ← tableOf baseSizes baseMax
  return ⟨baseSizes, baseMax, baseTable, shiftSizes, shiftMax, shiftTable⟩

/-- `pad_for_cudagraph`. -/
def CudagraphTables.padForCudagraph (t : CudagraphTables) (shiftMode : Bool) (batchSize : Nat) :
    Option Nat :=
  if shiftMode && !t.shiftTable.isEmpty then t.shiftTable[batchSize]? else t.baseTable[batchSize]?

/-! ## Correct padding -/

/-- Batches are padded to the next captured size, and never above the maximum. -/
structure PadsToSizes (sizes : List Nat) (maxSize : Nat) (pad : Nat → Option Nat) : Prop where
  least : ∀ bs, 1 ≤ bs → bs ≤ maxSize → (∃ c ∈ sizes, bs ≤ c) →
    ∃ v, pad bs = some v ∧ IsLeast {c | c ∈ sizes ∧ bs ≤ c} v
  le_max : ∀ bs v, pad bs = some v → v ≤ maxSize

/-- Both modes pad correctly. -/
def PadsInBothModes (orig : CompilationConfig → CompilationConfig) (sp : Nat) (cfg : CompilationConfig) :
    Prop :=
  ∃ t, setCudagraphSizes orig sp cfg = some t ∧
    PadsToSizes t.baseSizes t.baseMax (t.padForCudagraph false) ∧
    PadsToSizes t.shiftSizes t.shiftMax (t.padForCudagraph true)

/-- What the configuration must satisfy, for the base maximum that the setup settles. -/
def CompilationConfig.Fits (cfg : CompilationConfig) (sp baseMax : Nat) : Prop :=
  match cfg.cudagraphCaptureSizes with
  | some sizes => sizes.Pairwise (· < ·) ∧ baseMax ∈ sizes ∧ ∀ c ∈ sizes, c ≤ baseMax + 1
  | none =>
    let maxSize := cfg.maxCudagraphCaptureSize.getD 512
    let canonical := generateCaptureSizes maxSize
    maxSize ∈ canonical ∧ baseMax ∈ canonical.map (· * sp) ∧
      ∀ c ∈ canonical.map (· * sp), c ≤ baseMax + 1

/-! ## The table -/

/-- What one interval writes. -/
def paintInterval (start stop : Nat) (t : Nat → Nat) (bs : Nat) : Nat :=
  if start ≤ bs ∧ bs < stop then if bs = start then start else stop else t bs

/-- What the intervals of a walk from size to size write. -/
def paint : List Nat → (Nat → Nat) → Nat → Nat
  | start :: stop :: walk, t => paint (stop :: walk) (paintInterval start stop t)
  | _, t => t

theorem fillLoop_eq (n start stop k : Nat) (t : Nat → Nat) :
    (range' start k).foldlM (fun table bs =>
        if bs < table.length then some (table.set bs (if bs = start then start else stop)) else none)
      ((range n).map t) = if k = 0 ∨ start + k ≤ n then
      some ((range n).map fun bs =>
        if start ≤ bs ∧ bs < start + k then if bs = start then start else stop else t bs)
    else none := by
  induction k with
  | zero =>
    rw [if_pos (.inl rfl)]
    simp only [range'_zero, foldlM_nil, Option.pure_def, some.injEq]
    exact map_congr_left fun bs _ => (if_neg (by omega)).symm
  | succ k ih =>
    rw [range'_1_concat, foldlM_append, ih]
    by_cases hn : start + (k + 1) ≤ n
    · rw [if_pos (.inr (by omega)), if_pos (.inr hn)]
      simp only [bind_eq_bind, bind_some, foldlM_cons, foldlM_nil,
        length_map, length_range, if_pos (show start + k < n by omega), Option.pure_def, some.injEq]
      apply ext_getElem (by simp)
      intro bs hbs hbs'
      rw [getElem_set]
      simp only [getElem_map, getElem_range]
      grind
    · rw [if_neg (show ¬(k + 1 = 0 ∨ start + (k + 1) ≤ n) by omega)]
      split_ifs with hk
      · simp [show ¬start + k < n by omega]
      · rfl

theorem fillInterval_eq (n start stop : Nat) (t : Nat → Nat) :
    fillInterval ((range n).map t) stop start =
      if stop ≤ start ∨ stop ≤ n then some ((range n).map (paintInterval start stop t)) else none := by
  rw [fillInterval, fillLoop_eq]
  by_cases hstop : stop ≤ start
  · rw [if_pos (.inl (by omega)), if_pos (.inl hstop)]
    congr 1
    exact map_congr_left fun bs _ => by grind [paintInterval]
  · have hend : start + (stop - start) = stop := by omega
    have hcond : (stop - start = 0 ∨ stop ≤ n) ↔ (stop ≤ start ∨ stop ≤ n) := by omega
    simp only [hend, hcond]
    rfl

theorem foldlM_fillInterval (n stop : Nat) (sizes : List Nat) {start : Nat} (hstart : start ≤ n)
    (hstop : stop ≤ n) (t : Nat → Nat) :
    ((sizes ++ [stop]).zip (start :: sizes)).foldlM
        (fun table interval => fillInterval table interval.1 interval.2) ((range n).map t) =
      if ∀ c ∈ sizes, c ≤ n then some ((range n).map (paint (start :: sizes ++ [stop]) t))
      else none := by
  induction sizes generalizing start t with
  | nil => simp [fillInterval_eq, hstop, paint]
  | cons c sizes ih =>
    rw [cons_append, zip_cons_cons, foldlM_cons]
    simp only [fillInterval_eq, forall_mem_cons]
    by_cases hc : c ≤ n
    · rw [if_pos (.inr hc), bind_eq_bind, bind_some, ih hc]
      simp [hc, paint]
    · rw [if_neg (by omega), if_neg (fun h => hc h.1)]
      rfl

/-- The table is there when every size fits in it. -/
theorem buildBsToPadded_eq (sizes : List Nat) (m : Nat) :
    buildBsToPadded sizes m = if ∀ c ∈ sizes, c ≤ m + 1 then
      some ((range (m + 1)).map (paint (0 :: (sizes ++ [m + 1])) fun _ => 0)) else none := by
  have hzeros : replicate (m + 1) 0 = (range (m + 1)).map fun _ => 0 := by
    simp [map_const']
  rw [buildBsToPadded, hzeros]
  exact foldlM_fillInterval (m + 1) (m + 1) sizes zero_le le_rfl _

/-! ## What the intervals leave -/

variable {walk : List Nat}

theorem paint_of_lt {c : Nat} (h : ∀ x ∈ walk, c < x) (t : Nat → Nat) : paint walk t c = t c := by
  induction walk generalizing t with
  | nil => rfl
  | cons a walk ih =>
    cases walk with
    | nil => rfl
    | cons b walk =>
      have ha := h a mem_cons_self
      rw [paint, ih fun x hx => h x (mem_cons_of_mem _ hx), paintInterval, if_neg (by omega)]

theorem lt_paint_of_lt {c : Nat} (hc : c ∉ walk) {t : Nat → Nat} (ht : c < t c) :
    c < paint walk t c := by
  induction walk generalizing t with
  | nil => exact ht
  | cons a walk ih =>
    cases walk with
    | nil => exact ht
    | cons b walk =>
      rw [mem_cons, not_or] at hc
      apply ih hc.2
      rw [paintInterval]
      split_ifs with hin hstart
      · exact absurd hstart hc.1
      · exact hin.2
      · exact ht

theorem lt_paint_of_crossing {a c : Nat} (ha : a < c) (hc : c ∉ walk) (hlater : ∃ e ∈ walk, c < e)
    (t : Nat → Nat) : c < paint (a :: walk) t c := by
  induction walk generalizing a t with
  | nil => simp at hlater
  | cons b walk ih =>
    obtain ⟨hb, hwalk⟩ := not_or.mp (mt mem_cons.mpr hc)
    rcases lt_or_gt_of_ne hb with hlt | hgt
    · rw [paint]
      apply lt_paint_of_lt hc
      rw [paintInterval, if_pos ⟨ha.le, hlt⟩, if_neg (by omega)]
      exact hlt
    · rw [paint]
      obtain ⟨e, he, hce⟩ := hlater
      rcases mem_cons.mp he with rfl | he
      · omega
      · exact ih hgt hwalk ⟨e, he, hce⟩ _

theorem exists_paint_append (l walk : List Nat) (y : Nat) (t : Nat → Nat) :
    ∃ t', paint (l ++ y :: walk) t = paint (y :: walk) t' := by
  induction l generalizing t with
  | nil => exact ⟨t, rfl⟩
  | cons a l ih =>
    cases l with
    | nil => exact ⟨paintInterval a y t, rfl⟩
    | cons b l => exact ih (paintInterval a b t)

theorem isLeast_paint {a bs : Nat} (hsorted : (a :: walk).Pairwise (· ≤ ·)) (ha : a ≤ bs)
    (hlater : ∃ e ∈ walk, bs < e) (t : Nat → Nat) :
    IsLeast {c | c ∈ a :: walk ∧ bs ≤ c} (paint (a :: walk) t bs) := by
  induction walk generalizing a t with
  | nil => simp at hlater
  | cons b walk ih =>
    obtain ⟨hab, hrest⟩ := pairwise_cons.mp hsorted
    have hb := hab b mem_cons_self
    rw [paint]
    by_cases hbs : bs < b
    · have habove : ∀ x ∈ b :: walk, bs < x := by
        intro x hx
        rcases mem_cons.mp hx with rfl | hx
        · exact hbs
        · exact hbs.trans_le ((pairwise_cons.mp hrest).1 x hx)
      rw [paint_of_lt habove, paintInterval, if_pos ⟨ha, hbs⟩]
      split_ifs with heq
      · subst heq
        exact ⟨⟨mem_cons_self, le_rfl⟩, fun c hc => hc.2⟩
      · refine ⟨⟨by simp, hbs.le⟩, fun c hc => ?_⟩
        obtain ⟨hmem, hle⟩ := hc
        rcases mem_cons.mp hmem with rfl | hmem
        · omega
        rcases mem_cons.mp hmem with rfl | hmem
        · exact le_rfl
        · exact (pairwise_cons.mp hrest).1 c hmem
    · have hlater' : ∃ e ∈ walk, bs < e := by
        obtain ⟨e, he, hlt⟩ := hlater
        rcases mem_cons.mp he with rfl | he
        · omega
        · exact ⟨e, he, hlt⟩
      obtain ⟨⟨hmem, hle⟩, hleast⟩ := ih hrest (by omega) hlater' (paintInterval a b t)
      refine ⟨⟨mem_cons_of_mem _ hmem, hle⟩, fun c hc => ?_⟩
      rcases mem_cons.mp hc.1 with rfl | hcmem
      · exact hleast ⟨by rw [show c = b by have := hc.2; omega]; exact mem_cons_self, hc.2⟩
      · exact hleast ⟨hcmem, hc.2⟩

/-! ## Tables that pad to the next size -/

section Tables

variable {sizes : List Nat} {m : Nat}

/-- The table is built and pads correctly. -/
def PadsWithTable (sizes : List Nat) (m : Nat) : Prop :=
  ∃ table, buildBsToPadded sizes m = some table ∧ PadsToSizes sizes m (table[·]?)

theorem padsWithTable_iff : PadsWithTable sizes m ↔ (∀ c ∈ sizes, c ≤ m + 1) ∧
    PadsToSizes sizes m fun bs =>
      if bs ≤ m then some (paint (0 :: (sizes ++ [m + 1])) (fun _ => 0) bs) else none := by
  have hget : ∀ f : Nat → Nat, (fun bs => ((range (m + 1)).map f)[bs]?) =
      fun bs => if bs ≤ m then some (f bs) else none := by
    intro f
    funext bs
    by_cases hbs : bs ≤ m
    · simp [hbs, Nat.lt_succ_of_le hbs]
    · simp [hbs]
  constructor
  · rintro ⟨table, htable, h⟩
    rw [buildBsToPadded_eq] at htable
    split_ifs at htable with hle
    cases htable
    rw [hget] at h
    exact ⟨hle, h⟩
  · rintro ⟨hle, h⟩
    rw [← hget] at h
    exact ⟨_, by rw [buildBsToPadded_eq, if_pos hle], h⟩

/-- For ascending sizes: the maximum is one of them, and at most one lies above it. -/
theorem pads_iff_max_mem (hsorted : sizes.Pairwise (· < ·)) (hm : 1 ≤ m) :
    PadsWithTable sizes m ↔ m ∈ sizes ∧ ∀ c ∈ sizes, c ≤ m + 1 := by
  rw [padsWithTable_iff, and_comm, and_congr_left_iff]
  intro hle
  have hwalk : (0 :: (sizes ++ [m + 1])).Pairwise (· ≤ ·) := by
    rw [pairwise_cons, pairwise_append]
    refine ⟨fun _ _ => zero_le, hsorted.imp le_of_lt, pairwise_singleton _ _, ?_⟩
    intro c hc e he
    rw [mem_singleton.mp he]
    exact hle c hc
  have hvalue (bs : Nat) (hbs : bs ≤ m) := isLeast_paint hwalk zero_le
    ⟨m + 1, by simp, Nat.lt_succ_of_le hbs⟩ fun _ => 0
  constructor
  · intro h
    have hmax := h.le_max m _ (if_pos le_rfl)
    obtain ⟨⟨hmem, hge⟩, -⟩ := hvalue m le_rfl
    rw [le_antisymm hmax hge] at hmem
    simpa [Nat.one_le_iff_ne_zero.mp hm] using hmem
  · intro hmem
    have hmax : ∀ bs ≤ m, paint (0 :: (sizes ++ [m + 1])) (fun _ => 0) bs ≤ m :=
      fun bs hbs => (hvalue bs hbs).2 ⟨by simp [hmem], hbs⟩
    constructor
    · intro bs hone hbs _
      refine ⟨_, if_pos hbs, ?_⟩
      obtain ⟨⟨hstop, hge⟩, hleast⟩ := hvalue bs hbs
      refine ⟨⟨?_, hge⟩, fun c hc => hleast ⟨by simp [hc.1], hc.2⟩⟩
      have hlt := hmax bs hbs
      rcases mem_cons.mp hstop with hzero | hstop
      · omega
      rcases mem_append.mp hstop with hstop | hend
      · exact hstop
      · have := mem_singleton.mp hend
        omega
    · intro bs v hv
      split_ifs at hv with hbs
      rw [← some.inj hv]
      exact hmax bs hbs

/-- For a maximum that is the largest size: the sizes are ascending. -/
theorem pads_iff_sorted (hnodup : sizes.Nodup) (hpos : ∀ c ∈ sizes, 1 ≤ c) (hm : 1 ≤ m) (hmem : m ∈ sizes)
    (hle : ∀ c ∈ sizes, c ≤ m) : PadsWithTable sizes m ↔ sizes.Pairwise (· < ·) := by
  constructor
  · intro h
    have hpads := (padsWithTable_iff.mp h).2
    -- Every end piece is ascending: after a descent the walk would pass over the size again.
    have hsuffix : ∀ s l, sizes = l ++ s → s.Pairwise (· < ·) := by
      intro s
      induction s with
      | nil => exact fun _ _ => List.Pairwise.nil
      | cons c s ih =>
        intro l hl
        have hs := ih (l ++ [c]) (by simp [hl])
        have hc : c ∈ sizes := by simp [hl]
        have hcs : c ∉ s := by
          rw [hl] at hnodup
          exact (nodup_cons.mp hnodup.of_append_right).1
        refine pairwise_cons.mpr ⟨?_, hs⟩
        cases s with
        | nil => simp
        | cons d s =>
          have hcd : c < d := by
            by_contra hdc
            obtain ⟨hne, -⟩ := not_or.mp (mt mem_cons.mpr hcs)
            obtain ⟨v, hv, hleast⟩ := hpads.least c (hpos c hc) (hle c hc) ⟨c, hc, le_rfl⟩
            rw [if_pos (hle c hc), some.injEq] at hv
            have hwalk : 0 :: (sizes ++ [m + 1]) = (0 :: (l ++ [c])) ++ d :: (s ++ [m + 1]) := by simp [hl]
            obtain ⟨t', ht'⟩ := exists_paint_append (0 :: (l ++ [c])) (s ++ [m + 1]) d fun _ => 0
            have hcm := hle c hc
            have hmissing : c ∉ s ++ [m + 1] := by
              rw [mem_append, mem_singleton, not_or]
              exact ⟨fun hmem => hcs (mem_cons_of_mem _ hmem), by omega⟩
            have hover := lt_paint_of_crossing (show d < c by omega) hmissing ⟨m + 1, by simp, by omega⟩ t'
            have hback := hleast.2 ⟨hc, le_rfl⟩
            rw [← hv, hwalk, ht'] at hback
            omega
          intro x hx
          rcases mem_cons.mp hx with rfl | hx
          · exact hcd
          · exact hcd.trans ((pairwise_cons.mp hs).1 x hx)
    exact hsuffix sizes [] rfl
  · intro hsorted
    exact (pads_iff_max_mem hsorted hm).mpr ⟨hmem, fun c hc => Nat.le_succ_of_le (hle c hc)⟩

end Tables

/-! ## Both modes -/

theorem mem_rangeStep {start stop step x : Nat} (h : x ∈ rangeStep start stop step) (hstep : 0 < step) :
    start ≤ x ∧ x < stop := by
  simp only [rangeStep, starts, mem_map, mem_range] at h
  obtain ⟨_, ⟨i, hi, rfl⟩, rfl⟩ := h
  have hlt : i * step + step ≤ stop - start + step - 1 := by
    rw [← Nat.succ_mul]
    exact (Nat.le_div_iff_mul_le hstep).mp hi
  omega

theorem rangeStep_sorted {step : Nat} (hstep : 0 < step) (start stop : Nat) :
    (rangeStep start stop step).Pairwise (· < ·) := by
  rw [rangeStep, starts, map_map, pairwise_map]
  apply pairwise_lt_range.imp
  intro i j hij
  exact Nat.add_lt_add_left (Nat.mul_lt_mul_of_pos_right hij hstep) start

/-- Ascending numbers from `lo` to below `hi`. -/
def Ascending (lo hi : Nat) (l : List Nat) : Prop :=
  l.Pairwise (· < ·) ∧ ∀ c ∈ l, lo ≤ c ∧ c < hi

theorem Ascending.append {a b c : Nat} {l l' : List Nat} (h : Ascending a b l) (h' : Ascending b c l')
    (hab : a ≤ b) (hbc : b ≤ c) : Ascending a c (l ++ l') := by
  refine ⟨pairwise_append.mpr ⟨h.1, h'.1, fun x hx y hy => ?_⟩, fun x hx => ?_⟩
  · exact (h.2 x hx).2.trans_le (h'.2 y hy).1
  · rcases mem_append.mp hx with hx | hx
    · exact ⟨(h.2 x hx).1, (h.2 x hx).2.trans_le hbc⟩
    · exact ⟨hab.trans (h'.2 x hx).1, (h'.2 x hx).2⟩

theorem ascending_rangeStep (p : Prop) [Decidable p] {start stop step hi : Nat} (hstep : 0 < step)
    (hstop : stop ≤ hi) : Ascending start hi (if p then rangeStep start stop step else []) := by
  split_ifs
  · refine ⟨rangeStep_sorted hstep start stop, fun c hc => ?_⟩
    obtain ⟨hlo, hlt⟩ := mem_rangeStep hc hstep
    exact ⟨hlo, hlt.trans_le hstop⟩
  · exact ⟨List.Pairwise.nil, by simp⟩

theorem ascending_generateCaptureSizes (m : Nat) : Ascending 1 (m + 513) (generateCaptureSizes m) := by
  have hsmall : Ascending 1 8 ([1, 2, 4].filter (· ≤ m)) :=
    ⟨List.Pairwise.filter _ (by decide), fun c hc =>
      (show ∀ c ∈ [1, 2, 4], 1 ≤ c ∧ c < 8 by decide) c (mem_of_mem_filter hc)⟩
  have hmiddle : Ascending 8 256 (if 8 ≤ m then rangeStep 8 (min (m + 1) 256) 8 else []) :=
    ascending_rangeStep _ (by decide) (min_le_right _ _)
  have hlarge : Ascending 256 512 (if 256 ≤ m then rangeStep 256 (min (m + 1) 512) 16 else []) :=
    ascending_rangeStep _ (by decide) (min_le_right _ _)
  have hhuge : Ascending 512 (m + 513) (if 512 ≤ m then rangeStep 512 (m + 1) 32 else []) :=
    ascending_rangeStep _ (by decide) (by omega)
  exact ((hsmall.append hmiddle (by decide) (by decide)).append hlarge (by decide) (by decide)).append
    hhuge (by decide) (by omega)

theorem le_of_mem_generateCaptureSizes {m c : Nat} (hc : c ∈ generateCaptureSizes m) : c ≤ m := by
  have hrange {p : Prop} [Decidable p] {start stop step : Nat}
      (h : c ∈ if p then rangeStep start stop step else []) (hstep : 0 < step) : c < stop := by
    split_ifs at h
    · exact (mem_rangeStep h hstep).2
    · simp at h
  rw [generateCaptureSizes, mem_append, mem_append, mem_append] at hc
  rcases hc with ((hc | hc) | hc) | hc
  · exact of_decide_eq_true (mem_filter.mp hc).2
  · have := hrange hc (by decide)
    omega
  · have := hrange hc (by decide)
    omega
  · exact Nat.le_of_lt_succ (hrange hc (by decide))

theorem one_mem_generateCaptureSizes {m : Nat} (hm : 1 ≤ m) : 1 ∈ generateCaptureSizes m := by
  simp [generateCaptureSizes, hm]

theorem foldl_max_eq_or_mem (sizes : List Nat) (n : Nat) :
    sizes.foldl max n = n ∨ sizes.foldl max n ∈ sizes := by
  induction sizes generalizing n with
  | nil => exact .inl rfl
  | cons c sizes ih =>
    rcases ih (max n c) with h | h
    · rcases max_choice n c with hmax | hmax
      · exact .inl (h.trans hmax)
      · exact .inr (by rw [foldl_cons, h, hmax]; exact mem_cons_self)
    · exact .inr (mem_cons_of_mem _ h)

theorem isEmpty_of_tableOf {sizes table : List Nat} {m : Nat} (hne : sizes ≠ [])
    (htable : tableOf sizes m = some table) : table.isEmpty = false := by
  rw [tableOf, if_neg hne, buildBsToPadded_eq] at htable
  split_ifs at htable
  cases htable
  simp

theorem padsInBothModes_iff {orig : CompilationConfig → CompilationConfig} {sp baseMax : Nat}
    {cfg cfg' : CompilationConfig} {baseSizes shiftSizes : List Nat} {shiftMax : Nat}
    (hchoose : chooseSizes sp cfg = (cfg', shiftSizes, shiftMax))
    (hbase : (orig cfg').cudagraphCaptureSizes = some baseSizes)
    (hmax : (orig cfg').maxCudagraphCaptureSize = some baseMax) (hbaseSizes : baseSizes ≠ [])
    (hshiftSizes : shiftSizes ≠ []) :
    PadsInBothModes orig sp cfg ↔ PadsWithTable baseSizes baseMax ∧ PadsWithTable shiftSizes shiftMax := by
  have hpad (t : CudagraphTables) (h : t.shiftTable.isEmpty = false) :
      t.padForCudagraph false = (t.baseTable[·]?) ∧ t.padForCudagraph true = (t.shiftTable[·]?) := by
    constructor <;> funext bs <;> simp [CudagraphTables.padForCudagraph, h]
  have htable (sizes : List Nat) (m : Nat) (hne : sizes ≠ []) : tableOf sizes m = buildBsToPadded sizes m :=
    if_neg hne
  simp only [PadsInBothModes, setCudagraphSizes, hchoose, hbase, hmax, getD_some,
    bind_eq_bind, Option.pure_def, bind_some]
  constructor
  · rintro ⟨t, ht, hb, hs⟩
    obtain ⟨shiftTable, hshift, ht⟩ := bind_eq_some_iff.mp ht
    obtain ⟨baseTable, hbaseTable, ht⟩ := bind_eq_some_iff.mp ht
    cases ht
    have hfull := isEmpty_of_tableOf hshiftSizes hshift
    rw [(hpad _ hfull).1] at hb
    rw [(hpad _ hfull).2] at hs
    exact ⟨⟨baseTable, htable _ _ hbaseSizes ▸ hbaseTable, hb⟩,
      ⟨shiftTable, htable _ _ hshiftSizes ▸ hshift, hs⟩⟩
  · rintro ⟨⟨baseTable, hbaseTable, hb⟩, ⟨shiftTable, hshift, hs⟩⟩
    rw [← htable _ _ hbaseSizes] at hbaseTable
    rw [← htable _ _ hshiftSizes] at hshift
    have hfull := isEmpty_of_tableOf hshiftSizes hshift
    refine ⟨⟨baseSizes, baseMax, baseTable, shiftSizes, shiftMax, shiftTable⟩, ?_, ?_, ?_⟩
    · rw [hshift, bind_some, hbaseTable, bind_some]
    · rw [(hpad _ hfull).1]
      exact hb
    · rw [(hpad _ hfull).2]
      exact hs

/-- The configurations for which both modes pad to the next captured size. -/
theorem padding_iff {orig : CompilationConfig → CompilationConfig}
    (horig : ∀ cfg, (orig cfg).cudagraphCaptureSizes = cfg.cudagraphCaptureSizes) {sp : Nat} (hsp : 1 ≤ sp)
    (cfg : CompilationConfig) (hmax : ∀ m, cfg.maxCudagraphCaptureSize = some m → 1 ≤ m)
    (hsizes : ∀ sizes, cfg.cudagraphCaptureSizes = some sizes →
      sizes ≠ [] ∧ sizes.Nodup ∧ ∀ c ∈ sizes, 1 ≤ c) {baseMax : Nat} (hbaseMax : 1 ≤ baseMax)
    (hsettled : (orig (chooseSizes sp cfg).1).maxCudagraphCaptureSize = some baseMax) :
    PadsInBothModes orig sp cfg ↔ cfg.Fits sp baseMax := by
  obtain ⟨maxSize, sizes⟩ := cfg
  cases sizes with
  | none =>
    have hone : 1 ≤ maxSize.getD 512 := by
      cases maxSize with
      | none => decide
      | some m => exact hmax m rfl
    have hchoose : chooseSizes sp ⟨maxSize, none⟩ =
        (⟨some (maxSize.getD 512 * sp), some ((generateCaptureSizes (maxSize.getD 512)).map (· * sp))⟩,
          generateCaptureSizes (maxSize.getD 512), maxSize.getD 512) := rfl
    rw [hchoose] at hsettled
    have hmem := one_mem_generateCaptureSizes hone
    have hsorted := (ascending_generateCaptureSizes (maxSize.getD 512)).1
    have hscaled : ((generateCaptureSizes (maxSize.getD 512)).map (· * sp)).Pairwise (· < ·) := by
      rw [pairwise_map]
      exact hsorted.imp fun hlt => Nat.mul_lt_mul_of_pos_right hlt hsp
    rw [padsInBothModes_iff hchoose (horig _) hsettled
      (ne_nil_of_mem (mem_map_of_mem hmem)) (ne_nil_of_mem hmem),
      pads_iff_max_mem hscaled hbaseMax, pads_iff_max_mem hsorted hone, and_comm]
    have hle : ∀ c ∈ generateCaptureSizes (maxSize.getD 512), c ≤ maxSize.getD 512 + 1 :=
      fun c hc => Nat.le_succ_of_le (le_of_mem_generateCaptureSizes hc)
    exact and_congr_left fun _ => and_iff_left hle
  | some sizes =>
    obtain ⟨hne, hnodup, hpos⟩ := hsizes sizes rfl
    have hle := (Chunks.le_foldl_max sizes 0).2
    obtain ⟨c, hc⟩ := exists_mem_of_ne_nil sizes hne
    have hone : 1 ≤ sizes.foldl max 0 := (hpos c hc).trans (hle c hc)
    have hlast : sizes.foldl max 0 ∈ sizes := (foldl_max_eq_or_mem sizes 0).resolve_left (by omega)
    have hchoose : chooseSizes sp ⟨maxSize, some sizes⟩ =
        (⟨maxSize, some sizes⟩, sizes, sizes.foldl max 0) := rfl
    rw [hchoose] at hsettled
    rw [padsInBothModes_iff hchoose (horig _) hsettled hne hne, pads_iff_sorted hnodup hpos hone hlast hle,
      and_comm]
    exact and_congr_right fun hsorted => pads_iff_max_mem hsorted hbaseMax

/-- The sizes 1 and 4 given in the other order. -/
def descending : CompilationConfig := ⟨some 4, some [4, 1]⟩

theorem padding_iff_descending : PadsInBothModes id 1 descending ↔ descending.Fits 1 4 := by
  have hmax : ∀ m, descending.maxCudagraphCaptureSize = some m → 1 ≤ m := by simp [descending]
  have hsizes : ∀ sizes, descending.cudagraphCaptureSizes = some sizes →
      sizes ≠ [] ∧ sizes.Nodup ∧ ∀ c ∈ sizes, 1 ≤ c := by simp [descending]
  exact padding_iff (fun _ => rfl) le_rfl descending hmax hsizes (by decide) rfl

/-- A full batch of four is padded to five. -/
theorem full_batch_above_maximum : ¬PadsInBothModes id 1 descending := by
  intro h
  obtain ⟨t, ht, hbase, -⟩ := h
  have hset : setCudagraphSizes id 1 descending =
      some ⟨[4, 1], 4, [0, 1, 5, 5, 5], [4, 1], 4, [0, 1, 5, 5, 5]⟩ := by decide
  rw [hset, some.injEq] at ht
  subst ht
  exact absurd (hbase.le_max 4 5 rfl) (by decide)

end ArcticPlatform.Ulysses
