import ArcticPlatform.ExpertParallel.Model
import ArcticPlatform.Library.Chunks
import ArcticPlatform.Library.GroupPrograms

/-!
# Collective calls of the ranks

The calls that `MoE._run_deepep_routed_experts` and
`LatentMoE._run_deepep_routed_experts` of `moe/layers/moe.py` issue on a rank, which
depend on the number of its tokens.  A rank without tokens returns before its first call, and
only `MoE` agrees on a number of chunks.

Main results:

- Theorem `runs_runChunks`: ranks with equally many chunks stay in step.
- Theorem `ranks_inStep_iff`: when the ranks issue the same calls.
-/

namespace ArcticPlatform.ExpertParallel

open GroupPrograms List

/-- The collective calls over the group of expert-parallel ranks. -/
inductive Collective
  | allReduceMax
  | dispatch
  | combine

/-- What the group answers; only the all-reduce has an answer that the calls depend on. -/
def Collective.answer : Collective → List Nat → Nat
  | .allReduceMax, values => values.foldl max 0
  | .dispatch, _ => 0
  | .combine, _ => 0

/-- A rank ends with the chunks whose outputs it concatenates, or with an `IndexError`. -/
abbrev Rank := Program Collective Nat Nat (Option (List (Nat × Nat)))

/-! ## The calls of a rank -/

/-- The loop over the chunks behind the first one: a chunk is dispatched before the one that
is pending is combined. -/
def runChunks (pending : Nat × Nat) : List (Nat × Nat) → List (Nat × Nat) → Rank
  | [], routedOutputs => .call .combine 0 fun _ => .finished (some (routedOutputs ++ [pending]))
  | bounds :: rest, routedOutputs =>
    .call .dispatch (bounds.2 - bounds.1) fun _ => .call .combine 0 fun _ =>
      runChunks bounds rest (routedOutputs ++ [pending])

/-- The dispatch of the first chunk, and the loop over the others. -/
def dispatchChunks : List (Nat × Nat) → Rank
  | [] => .finished none
  | first :: rest => .call .dispatch (first.2 - first.1) fun _ => runChunks first rest []

/-- `MoE._run_deepep_routed_experts` on a rank with so many tokens. -/
def moeCalls (deepepTokenChunkSize : Option Nat) (numTokens : Nat) : Rank :=
  -- the shared expert alone
  if numTokens = 0 then .finished (some [])
  else
    let size := chunkSize deepepTokenChunkSize numTokens
    let run := fun numChunks => dispatchChunks (chunkBounds size numTokens numChunks)
    match deepepTokenChunkSize with
    | some (_ + 1) => .call .allReduceMax ((numTokens + size - 1) / size) run
    | _ => run 1

/-- The chunks of a rank of `LatentMoE`. -/
def latentChunkBounds (size numTokens : Nat) : List (Nat × Nat) :=
  let starts := List.range' size ((numTokens - size + size - 1) / size) size
  (0, size) :: starts.map fun start => (start, min (start + size) numTokens)

/-- `LatentMoE._run_deepep_routed_experts` on a rank with so many tokens. -/
def latentMoeCalls (deepepTokenChunkSize : Option Nat) (numTokens : Nat) : Rank :=
  if numTokens = 0 then .finished (some [])
  else
    let size := min (chunkSize deepepTokenChunkSize numTokens) numTokens
    dispatchChunks (latentChunkBounds size numTokens)

/-- The calls in backward: a combine's is a dispatch, and a dispatch's is a combine. -/
def backwardCalls (routedOutputs : List (Nat × Nat)) : List Collective :=
  routedOutputs.flatMap fun _ => [.dispatch, .combine]

/-- The ranks issue the same calls in forward, and equally many in backward. -/
def InStep (ranks : List Rank) : Prop :=
  ∃ (trace : List Collective) (routedOutputs : List (List (Nat × Nat))),
    Runs Collective.answer ranks trace (routedOutputs.map some) ∧
    ∀ a ∈ routedOutputs, ∀ b ∈ routedOutputs, (backwardCalls a).length = (backwardCalls b).length

@[simp] theorem length_backwardCalls (routedOutputs : List (Nat × Nat)) :
    (backwardCalls routedOutputs).length = 2 * routedOutputs.length := by
  simp [backwardCalls, length_flatMap, mul_comm]

/-! ## Ranks with equally many chunks -/

/-- The calls of the loop, with so many chunks behind the pending one. -/
def chunkTrace : Nat → List Collective
  | 0 => [.combine]
  | n + 1 => .dispatch :: .combine :: chunkTrace n

theorem length_chunkTrace (n : Nat) : (chunkTrace n).length = 2 * n + 1 := by
  induction n with
  | zero => rfl
  | succ n ih => simp only [chunkTrace, length_cons, ih]; omega

variable {trace : List Collective} {r : Option (List (Nat × Nat))}

/-- A rank issues two calls for each chunk behind the pending one. -/
theorem issues_runChunks {pending : Nat × Nat} {rest routedOutputs : List (Nat × Nat)}
    (h : Issues (runChunks pending rest routedOutputs) trace r) :
    trace = chunkTrace rest.length := by
  induction rest generalizing pending routedOutputs trace with
  | nil =>
    obtain ⟨_, last, rfl, hlast⟩ := issues_call_iff.mp h
    rw [(issues_finished_iff.mp hlast).1]
    rfl
  | cons bounds rest ih =>
    obtain ⟨_, behind, rfl, hcombine⟩ := issues_call_iff.mp h
    obtain ⟨_, last, rfl, hlast⟩ := issues_call_iff.mp hcombine
    rw [ih hlast]
    rfl

theorem issues_dispatchChunks {bounds : List (Nat × Nat)}
    (h : Issues (dispatchChunks bounds) trace r) : trace.length = 2 * bounds.length := by
  cases bounds with
  | nil => rw [(issues_finished_iff.mp h).1]; rfl
  | cons first rest =>
    obtain ⟨_, behind, rfl, hbehind⟩ := issues_call_iff.mp h
    rw [issues_runChunks hbehind, length_cons, length_chunkTrace, length_cons]
    omega

variable {α : Type} {l : List α}

/-- Ranks with equally many chunks stay in step. -/
theorem runs_runChunks (hl : l ≠ []) (n : Nat) (pending : α → Nat × Nat)
    (rest routedOutputs : α → List (Nat × Nat)) (hrest : ∀ a ∈ l, (rest a).length = n) :
    Runs Collective.answer (l.map fun a => runChunks (pending a) (rest a) (routedOutputs a))
      (chunkTrace n) (l.map fun a => some (routedOutputs a ++ pending a :: rest a)) := by
  induction n generalizing pending rest routedOutputs with
  | zero =>
    have hnil : ∀ a ∈ l, rest a = [] := fun a ha => length_eq_zero_iff.mp (hrest a ha)
    have hprogram : (l.map fun a => runChunks (pending a) (rest a) (routedOutputs a)) =
        l.map fun a => .call .combine 0 fun _ => .finished (some (routedOutputs a ++ [pending a])) :=
      map_congr_left fun a ha => by rw [hnil a ha, runChunks]
    have hresult : (l.map fun a => some (routedOutputs a ++ pending a :: rest a)) =
        l.map fun a => some (routedOutputs a ++ [pending a]) :=
      map_congr_left fun a ha => by rw [hnil a ha]
    rw [hprogram, hresult]
    exact .call_map hl _ _ _ (.finished_map l _)
  | succ n ih =>
    have hcons : ∀ a ∈ l, rest a = (rest a).headD (0, 1) :: (rest a).tail := by
      intro a ha
      have hlength := hrest a ha
      cases hra : rest a with
      | nil => rw [hra] at hlength; cases hlength
      | cons b bs => rfl
    have hprogram : (l.map fun a => runChunks (pending a) (rest a) (routedOutputs a)) =
        l.map fun a => .call .dispatch (((rest a).headD (0, 1)).2 - ((rest a).headD (0, 1)).1) fun _ =>
          .call .combine 0 fun _ =>
            runChunks ((rest a).headD (0, 1)) (rest a).tail (routedOutputs a ++ [pending a]) :=
      map_congr_left fun a ha => by
        conv_lhs => rw [hcons a ha]
        rw [runChunks]
    have hresult : (l.map fun a => some (routedOutputs a ++ pending a :: rest a)) =
        l.map fun a => some ((routedOutputs a ++ [pending a]) ++
          (rest a).headD (0, 1) :: (rest a).tail) :=
      map_congr_left fun a ha => by rw [← hcons a ha, append_assoc, singleton_append]
    rw [hprogram, hresult, chunkTrace]
    refine .call_map hl _ _ _ (.call_map hl _ _ _ ?_)
    exact ih _ _ _ fun a ha => by rw [length_tail, hrest a ha]; omega

theorem runs_dispatchChunks (hl : l ≠ []) (n : Nat) (bounds : α → List (Nat × Nat))
    (hbounds : ∀ a ∈ l, (bounds a).length = n + 1) :
    Runs Collective.answer (l.map fun a => dispatchChunks (bounds a)) (.dispatch :: chunkTrace n)
      (l.map fun a => some (bounds a)) := by
  have hcons : ∀ a ∈ l, bounds a = (bounds a).headD (0, 1) :: (bounds a).tail := by
    intro a ha
    have hlength := hbounds a ha
    cases hba : bounds a with
    | nil => rw [hba] at hlength; cases hlength
    | cons b bs => rfl
  have hprogram : (l.map fun a => dispatchChunks (bounds a)) = l.map fun a =>
      .call .dispatch (((bounds a).headD (0, 1)).2 - ((bounds a).headD (0, 1)).1) fun _ =>
        runChunks ((bounds a).headD (0, 1)) (bounds a).tail [] :=
    map_congr_left fun a ha => by
      conv_lhs => rw [hcons a ha]
      rw [dispatchChunks]
  have hresult : (l.map fun a => some (bounds a)) =
      l.map fun a => some ([] ++ (bounds a).headD (0, 1) :: (bounds a).tail) :=
    map_congr_left fun a ha => by rw [← hcons a ha, nil_append]
  rw [hprogram, hresult]
  refine .call_map hl _ _ _ (runs_runChunks hl n _ _ _ fun a ha => ?_)
  rw [length_tail, hbounds a ha]
  omega

/-- Ranks with equally many chunks are in step. -/
theorem inStep_of_runs {ranks : List Rank} {n : Nat} (bounds : α → List (Nat × Nat))
    (hbounds : ∀ a ∈ l, (bounds a).length = n)
    (h : Runs Collective.answer ranks trace (l.map fun a => some (bounds a))) : InStep ranks := by
  refine ⟨trace, l.map bounds, by simpa [map_map, Function.comp_def] using h, ?_⟩
  intro x hx y hy
  obtain ⟨a, ha, rfl⟩ := mem_map.mp hx
  obtain ⟨b, hb, rfl⟩ := mem_map.mp hy
  rw [length_backwardCalls, length_backwardCalls, hbounds a ha, hbounds b hb]

/-! ## What a run says about the ranks -/

theorem InStep.issues {program : α → Rank} (h : InStep (l.map program)) :
    ∃ trace, ∀ a ∈ l, ∃ r, Issues (program a) trace r := by
  obtain ⟨trace, routedOutputs, hruns, -⟩ := h
  refine ⟨trace, fun a ha => ?_⟩
  obtain ⟨i, hi, hget⟩ := mem_iff_getElem.mp ha
  have hissues := hruns.issues
  have hlt : i < (l.map program).length := by simpa using hi
  have hrank := hissues.get hlt (hissues.length_eq ▸ hlt)
  simp only [get_eq_getElem, getElem_map, hget] at hrank
  exact ⟨_, hrank⟩

theorem inStep_of_finished {program : α → Rank}
    (h : ∀ a ∈ l, program a = .finished (some [])) : InStep (l.map program) := by
  rw [map_congr_left h]
  exact inStep_of_runs (fun _ => []) (fun _ _ => rfl) (.finished_map l _)

theorem InStep.zero_or_pos {l : List Nat} {program : Nat → Rank} (h : InStep (l.map program))
    (hzero : program 0 = .finished (some []))
    (hpos : ∀ n, 0 < n → ∀ trace r, Issues (program n) trace r → trace ≠ []) :
    (∀ n ∈ l, n = 0) ∨ ∀ n ∈ l, 0 < n := by
  obtain ⟨trace, hissues⟩ := h.issues
  cases htrace : trace with
  | nil =>
    refine .inl fun n hn => ?_
    obtain ⟨r, hr⟩ := hissues n hn
    by_contra hne
    exact hpos n (by omega) trace r hr htrace
  | cons c rest =>
    refine .inr fun n hn => ?_
    obtain ⟨r, hr⟩ := hissues n hn
    by_contra hle
    obtain rfl : n = 0 := by omega
    rw [hzero, htrace] at hr
    cases (issues_finished_iff.mp hr).1

/-! ## The ranks of `MoE` -/

theorem length_chunkBounds (size numTokens numChunks : Nat) :
    (chunkBounds size numTokens numChunks).length =
      max ((numTokens + size - 1) / size) numChunks := by
  simp only [chunkBounds, length_append, length_map, length_range, length_replicate]
  omega

theorem one_le_ceil {size numTokens : Nat} (hsize : 0 < size) (htokens : 0 < numTokens) :
    1 ≤ (numTokens + size - 1) / size := (Nat.le_div_iff_mul_le hsize).mpr (by omega)

theorem moeCalls_some {n numTokens : Nat} (h : 0 < numTokens) :
    moeCalls (some (n + 1)) numTokens =
      .call .allReduceMax ((numTokens + (n + 1) - 1) / (n + 1)) fun numChunks =>
        dispatchChunks (chunkBounds (n + 1) numTokens numChunks) := by
  simp [moeCalls, chunkSize, h.ne']

variable {setting : Option Nat}

theorem moeCalls_unset {numTokens : Nat} (hsetting : setting.getD 0 = 0) (h : 0 < numTokens) :
    moeCalls setting numTokens = dispatchChunks (chunkBounds numTokens numTokens 1) := by
  match setting, hsetting with
  | none, _ => simp [moeCalls, chunkSize, h.ne']
  | some 0, _ => simp [moeCalls, chunkSize, h.ne']

theorem moe_inStep {lens : List Nat} (h : ∀ len ∈ lens, 0 < len) :
    InStep (lens.map (moeCalls setting)) := by
  rcases eq_or_ne lens [] with rfl | hne
  · exact inStep_of_finished (by simp)
  rcases setting.getD 0 |>.eq_zero_or_pos with hunset | hset
  · rw [map_congr_left fun len hlen => moeCalls_unset hunset (h len hlen)]
    have hlength : ∀ len ∈ lens, (chunkBounds len len 1).length = 0 + 1 := by
      intro len hlen
      have hquot : (len + len - 1) / len = 1 := by
        have hlen := h len hlen
        rw [Nat.div_eq_iff hlen]
        omega
      rw [length_chunkBounds, hquot]
      rfl
    exact inStep_of_runs _ hlength (runs_dispatchChunks hne 0 _ hlength)
  · match setting, hset with
    | some (n + 1), _ =>
    let count : Nat → Nat := fun len => (len + (n + 1) - 1) / (n + 1)
    have hcount : ∀ len ∈ lens, count len ≤ (lens.map count).foldl max 0 :=
      fun len hlen => (Chunks.le_foldl_max _ 0).2 _ (mem_map_of_mem hlen)
    obtain ⟨first, hfirst⟩ := exists_mem_of_ne_nil lens hne
    have hpos : 1 ≤ (lens.map count).foldl max 0 :=
      le_trans (one_le_ceil (by omega) (h first hfirst)) (hcount first hfirst)
    obtain ⟨k, hk⟩ : ∃ k, (lens.map count).foldl max 0 = k + 1 := ⟨_, (Nat.sub_add_cancel hpos).symm⟩
    have hlength : ∀ len ∈ lens, (chunkBounds (n + 1) len (k + 1)).length = k + 1 := by
      intro len hlen
      have hle := hcount len hlen
      rw [length_chunkBounds]
      exact max_eq_right (hk ▸ hle)
    rw [map_congr_left fun len hlen => moeCalls_some (h len hlen)]
    have hruns := runs_dispatchChunks hne k _ hlength
    exact inStep_of_runs _ hlength
      (.call_map hne Collective.allReduceMax count _ (by simpa only [Collective.answer, hk] using hruns))

variable {len : Nat}

theorem moe_issues (hlen : 0 < len) (h : Issues (moeCalls setting len) trace r) : trace ≠ [] := by
  rcases setting.getD 0 |>.eq_zero_or_pos with hunset | hset
  · rw [moeCalls_unset hunset hlen] at h
    have hlength := issues_dispatchChunks h
    rw [length_chunkBounds] at hlength
    rintro rfl
    rw [length_nil] at hlength
    omega
  · match setting, hset with
    | some (n + 1), _ =>
    rw [moeCalls_some hlen] at h
    obtain ⟨_, rest, rfl, -⟩ := issues_call_iff.mp h
    exact cons_ne_nil _ _

/-! ## The ranks of `LatentMoE` -/

theorem length_latentChunkBounds {size numTokens : Nat} (hsize : 0 < size)
    (hle : size ≤ numTokens) :
    (latentChunkBounds size numTokens).length = (numTokens + size - 1) / size := by
  have hsplit : numTokens + size - 1 = numTokens - size + size - 1 + size := by omega
  rw [latentChunkBounds, length_cons, length_map, length_range', hsplit, Nat.add_div_right _ hsize]

/-- The number of chunks of a rank: one when no chunk size is set. -/
def latentChunks (setting : Option Nat) (len : Nat) : Nat :=
  match setting with
  | some (n + 1) => (len + n) / (n + 1)
  | _ => 1

theorem latentMoeCalls_eq (setting : Option Nat) (hlen : 0 < len) :
    ∃ bounds : List (Nat × Nat), latentMoeCalls setting len = dispatchChunks bounds ∧
      bounds.length = latentChunks setting len ∧ 0 < bounds.length := by
  have hself : (len + len - 1) / len = 1 := (Nat.div_eq_iff hlen).mpr (by omega)
  refine ⟨_, by rw [latentMoeCalls, if_neg hlen.ne'], ?_, by simp [latentChunkBounds]⟩
  match setting with
  | none =>
    rw [length_latentChunkBounds (by simpa [chunkSize] using hlen) (min_le_right _ _)]
    simpa [chunkSize, latentChunks] using hself
  | some 0 =>
    rw [length_latentChunkBounds (by simpa [chunkSize] using hlen) (min_le_right _ _)]
    simpa [chunkSize, latentChunks] using hself
  | some (n + 1) =>
    rw [length_latentChunkBounds (by simp [chunkSize, hlen]) (min_le_right _ _)]
    simp only [chunkSize, latentChunks]
    rcases le_total (n + 1) len with hle | hle
    · rw [min_eq_left hle]
      rfl
    · rw [min_eq_right hle, hself]
      exact ((Nat.div_eq_iff (by omega)).mpr (by omega)).symm

theorem latentMoe_inStep {lens : List Nat} (h : ∀ len ∈ lens, 0 < len)
    (hequal : ∀ a ∈ lens, ∀ b ∈ lens, latentChunks setting a = latentChunks setting b) :
    InStep (lens.map (latentMoeCalls setting)) := by
  rcases eq_or_ne lens [] with rfl | hne
  · exact inStep_of_finished (by simp)
  obtain ⟨first, hfirst⟩ := exists_mem_of_ne_nil lens hne
  have hbounds : ∀ len, ∃ bounds : List (Nat × Nat), len ∈ lens →
      latentMoeCalls setting len = dispatchChunks bounds ∧
        bounds.length = latentChunks setting first ∧ 0 < bounds.length := by
    intro len
    by_cases hlen : len ∈ lens
    · obtain ⟨bounds, heq, hlength, hpos⟩ := latentMoeCalls_eq setting (h len hlen)
      exact ⟨bounds, fun _ => ⟨heq, hlength.trans (hequal len hlen first hfirst), hpos⟩⟩
    · exact ⟨[], fun hmem => absurd hmem hlen⟩
  choose bounds hbounds using hbounds
  obtain ⟨-, hcount, hpos⟩ := hbounds first hfirst
  obtain ⟨k, hk⟩ : ∃ k, latentChunks setting first = k + 1 := ⟨_, (Nat.sub_add_cancel (hcount ▸ hpos)).symm⟩
  have hlength : ∀ len ∈ lens, (bounds len).length = k + 1 :=
    fun len hlen => (hbounds len hlen).2.1.trans hk
  rw [map_congr_left fun len hlen => (hbounds len hlen).1]
  exact inStep_of_runs _ hlength (runs_dispatchChunks hne k _ hlength)

theorem latentMoe_issues (hlen : 0 < len) (h : Issues (latentMoeCalls setting len) trace r) :
    trace.length = 2 * latentChunks setting len ∧ trace ≠ [] := by
  obtain ⟨bounds, heq, hlength, hpos⟩ := latentMoeCalls_eq setting hlen
  rw [heq] at h
  have htrace := issues_dispatchChunks h
  refine ⟨by rw [htrace, hlength], ?_⟩
  rintro rfl
  rw [length_nil] at htrace
  omega

/-- The ranks of either class issue the same calls if and only if either all of them have tokens
or none has, and those of `LatentMoE` cut their tokens into equally many chunks. -/
theorem ranks_inStep_iff (deepepTokenChunkSize : Option Nat) (lens : List Nat) :
    (InStep (lens.map (moeCalls deepepTokenChunkSize)) ↔
      (∀ len ∈ lens, len = 0) ∨ ∀ len ∈ lens, 0 < len) ∧
    (InStep (lens.map (latentMoeCalls deepepTokenChunkSize)) ↔
      (∀ len ∈ lens, len = 0) ∨ (∀ len ∈ lens, 0 < len) ∧ ∀ a ∈ lens, ∀ b ∈ lens,
          latentChunks deepepTokenChunkSize a = latentChunks deepepTokenChunkSize b) := by
  refine ⟨⟨fun h => ?_, ?_⟩, ⟨fun h => ?_, ?_⟩⟩
  · exact h.zero_or_pos (by simp [moeCalls]) fun n hn trace r => moe_issues hn
  · rintro (hzero | hpos)
    · exact inStep_of_finished fun len hlen => by simp [moeCalls, hzero len hlen]
    · exact moe_inStep hpos
  · rcases h.zero_or_pos (by simp [latentMoeCalls])
      fun n hn trace r hr => (latentMoe_issues hn hr).2 with hzero | hpos
    · exact .inl hzero
    · refine .inr ⟨hpos, fun a ha b hb => ?_⟩
      obtain ⟨trace, hissues⟩ := h.issues
      obtain ⟨ra, hra⟩ := hissues a ha
      obtain ⟨rb, hrb⟩ := hissues b hb
      have hcounta := (latentMoe_issues (hpos a ha) hra).1
      have hcountb := (latentMoe_issues (hpos b hb) hrb).1
      omega
  · rintro (hzero | ⟨hpos, hequal⟩)
    · exact inStep_of_finished fun len hlen => by simp [latentMoeCalls, hzero len hlen]
    · exact latentMoe_inStep hpos hequal

/-- A rank without tokens leaves its peer waiting, and so does a rank of `LatentMoE` with fewer
chunks. -/
theorem ranks_not_inStep :
    ¬ InStep ([0, 3].map (moeCalls (some 2))) ∧ ¬ InStep ([2, 3].map (latentMoeCalls (some 2))) := by
  constructor
  · rintro ⟨trace, outputs, h, -⟩
    have hissues := h.issues
    rw [map_cons, map_cons] at hissues
    obtain ⟨r, rs, hzero, hrest, -⟩ := forall₂_cons_left_iff.mp hissues
    obtain ⟨s, ss, hthree, -, -⟩ := forall₂_cons_left_iff.mp hrest
    obtain ⟨rfl, -⟩ := issues_finished_iff.mp hzero
    cases hthree
  · intro h
    obtain ⟨trace, hissues⟩ := h.issues
    obtain ⟨r, hr⟩ := hissues 2 (by simp)
    obtain ⟨s, hs⟩ := hissues 3 (by simp)
    have htwo : trace.length = 2 * (latentChunkBounds 2 2).length := issues_dispatchChunks hr
    have hthree : trace.length = 2 * (latentChunkBounds 2 3).length := issues_dispatchChunks hs
    simp [latentChunkBounds] at htwo hthree
    omega

end ArcticPlatform.ExpertParallel
