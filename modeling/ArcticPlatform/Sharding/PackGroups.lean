import ArcticPlatform.Library.BinPacking
import ArcticPlatform.Sharding.Balance

/-!
# The search for a placement of groups

What `_pack_groups` returns.  A placement it finds keeps every rank within the cap,
and it gives up only when there is no placement: each choice that was abandoned is one
from which the later groups do not fit, and the ranks that were not tried have the row
count of one that was.

Main results:

- Theorem `packGroups_exact`: the search is sound and complete, and an assignment gives
  each rank its share in whole groups.
-/

namespace ArcticPlatform.Sharding

open Dicts Results BinPacking List Function

/-- Every group of the order is on one rank, and no rank has more rows than the cap. -/
structure IsPlacement (sizes order : List Nat) (numShards cap : Nat) (rankOf : Nat → Option Nat) :
    Prop where
  placed : ∀ index ∈ order, ∃ rank < numShards, rankOf index = some rank
  within : ∀ rank < numShards, load (sizes.getD · 0) rankOf order rank ≤ cap

variable {l : List Nat}

theorem getD_set_self {i : Nat} (hi : i < l.length) (a : Nat) : (l.set i a).getD i 0 = a := by
  rw [getD_eq_getElem _ 0 (by simpa using hi), getElem_set_self]

theorem getD_set_ne {i j : Nat} (h : j ≠ i) (a : Nat) : (l.set i a).getD j 0 = l.getD j 0 := by
  rw [getD_eq_getElem?_getD, getElem?_set_ne (Ne.symm h), ← getD_eq_getElem?_getD]

theorem set_set_getD {i : Nat} (hi : i < l.length) (a : Nat) :
    (l.set i a).set i (l.getD i 0) = l := by
  rw [set_set, getD_eq_getElem _ 0 hi, set_getElem_self]

section Search

variable {κ : Type} [CostNumber κ]
variable {sizes : List Nat} {costs : List κ} {order : List Nat} {numShards cap : Nat}

/-! ## The candidates of a group -/

/-- What `candidates` has seen and found after the ranks that are gone. -/
structure Found (sizes : List Nat) (cap : Nat) (s : PackState κ) (index : Nat) (gone : List Nat)
    (acc : List (Nat × κ) × List Nat) : Prop where
  tried : ∀ state ∈ acc.1, ∃ rank ∈ acc.2, s.rows.getD rank 0 = state.1
  room : ∀ rank ∈ acc.2, rank ∈ gone ∧ s.rows.getD rank 0 + sizes.getD index 0 ≤ cap
  covered : ∀ rank ∈ gone, s.rows.getD rank 0 + sizes.getD index 0 ≤ cap →
    ∃ other ∈ acc.2, s.rows.getD other 0 = s.rows.getD rank 0

variable {s : PackState κ} {index : Nat}

theorem Found.snoc {gone : List Nat} {acc : List (Nat × κ) × List Nat}
    (h : Found sizes cap s index gone acc) (rank : Nat) :
    Found sizes cap s index (gone ++ [rank])
      (if s.rows.getD rank 0 + sizes.getD index 0 > cap ∨
          (s.rows.getD rank 0, s.rankCosts.getD rank CostNumber.zero) ∈ acc.1 then acc
        else (acc.1 ++ [(s.rows.getD rank 0, s.rankCosts.getD rank CostNumber.zero)],
          acc.2 ++ [rank])) := by
  split_ifs with hskip
  · refine ⟨h.tried, ?_, ?_⟩
    · intro other hother
      exact ⟨mem_append_left _ (h.room other hother).1, (h.room other hother).2⟩
    · intro other hother hroom
      rcases mem_append.mp hother with hgone | hlast
      · exact h.covered other hgone hroom
      · cases mem_singleton.mp hlast
        rcases hskip with hfull | htried
        · omega
        · exact h.tried _ htried
  · push Not at hskip
    refine ⟨?_, ?_, ?_⟩
    · intro state hstate
      rcases mem_append.mp hstate with hold | hnew
      · obtain ⟨other, hother, heq⟩ := h.tried state hold
        exact ⟨other, mem_append_left _ hother, heq⟩
      · cases mem_singleton.mp hnew
        exact ⟨rank, by simp, rfl⟩
    · intro other hother
      rcases mem_append.mp hother with hold | hnew
      · exact ⟨mem_append_left _ (h.room other hold).1, (h.room other hold).2⟩
      · cases mem_singleton.mp hnew
        exact ⟨by simp, hskip.1⟩
    · intro other hother hroom
      rcases mem_append.mp hother with hgone | hlast
      · obtain ⟨found, hfound, heq⟩ := h.covered other hgone hroom
        exact ⟨found, mem_append_left _ hfound, heq⟩
      · cases mem_singleton.mp hlast
        exact ⟨rank, by simp, rfl⟩

theorem found_foldl (ranks : List Nat) {gone : List Nat} {acc : List (Nat × κ) × List Nat}
    (h : Found sizes cap s index gone acc) :
    Found sizes cap s index (gone ++ ranks) (ranks.foldl (fun acc rank =>
      if s.rows.getD rank 0 + sizes.getD index 0 > cap ∨
          (s.rows.getD rank 0, s.rankCosts.getD rank CostNumber.zero) ∈ acc.1 then acc
        else (acc.1 ++ [(s.rows.getD rank 0, s.rankCosts.getD rank CostNumber.zero)],
          acc.2 ++ [rank])) acc) := by
  induction ranks generalizing gone acc with
  | nil => simpa using h
  | cons rank ranks ih =>
    rw [foldl_cons, append_cons]
    exact ih (h.snoc rank)

/-- Each candidate has room, and each rank with room has the row count of a candidate. -/
theorem candidates_found (s : PackState κ) (index : Nat) :
    (∀ rank ∈ candidates sizes numShards cap s index,
      rank < numShards ∧ s.rows.getD rank 0 + sizes.getD index 0 ≤ cap) ∧
    ∀ rank < numShards, s.rows.getD rank 0 + sizes.getD index 0 ≤ cap →
      ∃ other ∈ candidates sizes numShards cap s index,
        s.rows.getD other 0 = s.rows.getD rank 0 := by
  have hempty : Found sizes cap s index [] ([], []) := by constructor <;> simp
  have hfound := found_foldl ((range numShards).mergeSort fun a b =>
    toLex (s.rankCosts.getD a CostNumber.zero, a) ≤ toLex (s.rankCosts.getD b CostNumber.zero, b))
    hempty
  rw [nil_append] at hfound
  constructor
  · intro rank hrank
    obtain ⟨hgone, hroom⟩ := hfound.room rank hrank
    exact ⟨mem_range.mp (mem_mergeSort.mp hgone), hroom⟩
  · intro rank hrank hroom
    exact hfound.covered rank (mem_mergeSort.mpr (mem_range.mpr hrank)) hroom

/-! ## The stack -/

/-- The row counts are those of the groups that are placed. -/
structure Loads (sizes : List Nat) (numShards cap : Nat) (gone rows : List Nat)
    (rankOf : Nat → Option Nat) : Prop where
  length : rows.length = numShards
  placed : ∀ index ∈ gone, ∃ rank < numShards, rankOf index = some rank
  fresh : ∀ index, index ∉ gone → rankOf index = none
  counts : ∀ rank < numShards, rows.getD rank 0 = load (sizes.getD · 0) rankOf gone rank
  within : ∀ rank < numShards, rows.getD rank 0 ≤ cap

/-- The ranks worth trying for a group: they have room, and they have each row count of a rank
with room. -/
structure Worth (sizes : List Nat) (numShards cap : Nat) (rows : List Nat) (index : Nat)
    (ranks : List Nat) : Prop where
  room : ∀ rank ∈ ranks, rank < numShards ∧ rows.getD rank 0 + sizes.getD index 0 ≤ cap
  cover : ∀ rank < numShards, rows.getD rank 0 + sizes.getD index 0 ≤ cap →
    ∃ other ∈ ranks, rows.getD other 0 = rows.getD rank 0

theorem Worth.not_fits {rows ranks rest : List Nat}
    (h : Worth sizes numShards cap rows index ranks) (hlength : rows.length = numShards)
    (hnone : ∀ rank ∈ ranks,
      ¬Fits cap (rows.set rank (rows.getD rank 0 + sizes.getD index 0)) rest) :
    ¬Fits cap rows (sizes.getD index 0 :: rest) := by
  refine not_fits_cons ?_ hnone
  intro a ha hroom
  obtain ⟨rank, hrank, rfl⟩ := mem_iff_getElem.mp ha
  rw [← getD_eq_getElem _ 0 hrank] at hroom ⊢
  obtain ⟨other, hother, heq⟩ := h.cover rank (by rwa [← hlength]) hroom
  exact ⟨other, hother, by rw [hlength]; exact (h.room other hother).1, heq⟩

/-- The sizes of the groups from a position on. -/
def sizesFrom (sizes order : List Nat) (pos : Nat) : List Nat :=
  (order.drop pos).map (sizes.getD · 0)

variable {pos : Nat}

theorem sizesFrom_of_lt (h : pos < order.length) :
    sizesFrom sizes order pos =
      sizes.getD (order.getD pos 0) 0 :: sizesFrom sizes order (pos + 1) := by
  rw [sizesFrom, drop_eq_getElem_cons h, map_cons, getD_eq_getElem _ 0 h]
  rfl

theorem take_succ_getD (h : pos < order.length) :
    order.take (pos + 1) = order.take pos ++ [order.getD pos 0] := by
  rw [take_succ_eq_append_getElem h, getD_eq_getElem _ 0 h]

/-- Undoing the frames one after another gives back the state before each choice, and each
choice that a frame has gone past leaves the later groups without room. -/
def Stacked (sizes order : List Nat) (numShards cap : Nat) :
    List Nat → (Nat → Option Nat) → Nat → List (Frame κ) → Prop
  | rows, rankOf, pos, [] =>
    rows = replicate numShards 0 ∧ (∀ index, rankOf index = none) ∧ pos = 0
  | rows, rankOf, pos, frame :: stack =>
    let index := order.getD frame.pos 0
    let rank := frame.ranks.getD frame.choice 0
    let before := rows.set rank frame.savedRows
    let rankOfBefore := Function.update rankOf index none
    pos = frame.pos + 1 ∧ frame.pos < order.length ∧ frame.choice < frame.ranks.length ∧
      rows = before.set rank (before.getD rank 0 + sizes.getD index 0) ∧
      rankOf = Function.update rankOfBefore index (some rank) ∧
      Loads sizes numShards cap (order.take frame.pos) before rankOfBefore ∧
      Worth sizes numShards cap before index frame.ranks ∧ (∀ other ∈ frame.ranks.take frame.choice,
        ¬Fits cap (before.set other (before.getD other 0 + sizes.getD index 0))
          (sizesFrom sizes order pos)) ∧
      Stacked sizes order numShards cap before rankOfBefore frame.pos stack

theorem getElem_notMem_take (hnodup : order.Nodup) (hpos : pos < order.length) :
    order[pos] ∉ order.take pos := by
  rw [mem_take_iff_getElem]
  rintro ⟨i, hi, heq⟩
  have := hnodup.getElem_inj_iff.mp heq
  omega

/-- What holds of a state of the search. -/
structure Searching (sizes order : List Nat) (numShards cap : Nat) (s : PackState κ) : Prop where
  pos_le : s.pos ≤ order.length
  loads : Loads sizes numShards cap (order.take s.pos) s.rows s.placed.get?
  stacked : Stacked sizes order numShards cap s.rows s.placed.get? s.pos s.stack

theorem get?_set_eq_update (placed : Dict Nat Nat) (index rank : Nat) :
    (placed.set index rank).get? = Function.update placed.get? index (some rank) := by
  funext other
  rw [Dict.get?_set, update_apply]

theorem get?_erase_eq_update (placed : Dict Nat Nat) (index : Nat) :
    (placed.erase index).get? = Function.update placed.get? index none := by
  funext other
  rw [Dict.get?_erase, update_apply]

theorem Loads.snoc {gone rows : List Nat} {rankOf : Nat → Option Nat}
    (h : Loads sizes numShards cap gone rows rankOf) {index rank : Nat} (hnew : index ∉ gone)
    (hrank : rank < numShards) (hroom : rows.getD rank 0 + sizes.getD index 0 ≤ cap) :
    Loads sizes numShards cap (gone ++ [index])
      (rows.set rank (rows.getD rank 0 + sizes.getD index 0))
      (Function.update rankOf index (some rank)) := by
  have hlt : rank < rows.length := by rwa [h.length]
  have hsame : ∀ other ∈ gone, Function.update rankOf index (some rank) other = rankOf other := by
    intro other hother
    apply update_of_ne
    rintro rfl
    exact hnew hother
  refine ⟨by rw [length_set, h.length], ?_, ?_, ?_, ?_⟩
  · intro other hother
    rcases mem_append.mp hother with hgone | hlast
    · obtain ⟨r, hr, hof⟩ := h.placed other hgone
      exact ⟨r, hr, by rw [hsame other hgone, hof]⟩
    · cases mem_singleton.mp hlast
      exact ⟨rank, hrank, update_self ..⟩
  · intro other hother
    rw [mem_append, mem_singleton, not_or] at hother
    rw [update_of_ne hother.2]
    exact h.fresh other hother.1
  · intro other hother
    rw [load_append, load_congr hsame, load_singleton, update_self, ← h.counts other hother]
    by_cases heq : other = rank
    · subst heq
      rw [getD_set_self hlt, if_pos rfl]
    · rw [getD_set_ne heq, if_neg (by simpa using Ne.symm heq), add_zero]
  · intro other hother
    by_cases heq : other = rank
    · subst heq
      rw [getD_set_self hlt]
      exact hroom
    · rw [getD_set_ne heq]
      exact h.within other hother

theorem Searching.place (hnodup : order.Nodup) {ranks : List Nat} {choice : Nat}
    (hpos : s.pos < order.length) (h : Searching sizes order numShards cap s)
    (hworth : Worth sizes numShards cap s.rows (order.getD s.pos 0) ranks)
    (hchoice : choice < ranks.length) (hfailed : ∀ other ∈ ranks.take choice,
      ¬Fits cap (s.rows.set other (s.rows.getD other 0 + sizes.getD (order.getD s.pos 0) 0))
        (sizesFrom sizes order (s.pos + 1))) :
    Searching sizes order numShards cap (place sizes costs order s s.pos ranks choice) := by
  have hmem : ranks.getD choice 0 ∈ ranks := by
    rw [getD_eq_getElem _ 0 hchoice]
    exact getElem_mem hchoice
  obtain ⟨hrank, hroom⟩ := hworth.room _ hmem
  have hlt : ranks.getD choice 0 < s.rows.length := by rwa [h.loads.length]
  have hnew : order.getD s.pos 0 ∉ order.take s.pos := by
    rw [getD_eq_getElem _ 0 hpos]
    exact getElem_notMem_take hnodup hpos
  have hundo : Function.update (Function.update s.placed.get? (order.getD s.pos 0)
      (some (ranks.getD choice 0))) (order.getD s.pos 0) none = s.placed.get? := by
    rw [update_idem, ← h.loads.fresh _ hnew, update_eq_self]
  refine ⟨hpos, ?_, ?_⟩
  · simp only [Sharding.place, get?_set_eq_update, take_succ_getD hpos]
    exact h.loads.snoc hnew hrank hroom
  · simp only [Sharding.place, get?_set_eq_update, Stacked, hundo, set_set_getD hlt]
    exact ⟨trivial, hpos, hchoice, trivial, trivial, h.loads, hworth, hfailed, h.stacked⟩

/-- When the next groups do not fit, either the search continues at another choice, or the
groups do not fit at all. -/
theorem backtrack_searching (costs rankCosts : List κ) (hnodup : order.Nodup) {rows : List Nat}
    {placed : Dict Nat Nat} {stack : List (Frame κ)}
    (hstacked : Stacked sizes order numShards cap rows placed.get? pos stack)
    (hnone : ¬Fits cap rows (sizesFrom sizes order pos)) :
    match backtrack sizes costs order rows rankCosts placed stack with
    | some s => Searching sizes order numShards cap s
    | none => ¬Fits cap (replicate numShards 0) (sizesFrom sizes order 0) := by
  induction stack generalizing rankCosts rows placed pos with
  | nil =>
    obtain ⟨rfl, -, rfl⟩ := hstacked
    exact hnone
  | cons frame stack ih =>
    obtain ⟨rfl, hpos, hchoice, hrows, -, hloads, hworth, hfailed, hrest⟩ := hstacked
    -- The choice of this frame has failed too.
    have hfailed' : ∀ other ∈ frame.ranks.take (frame.choice + 1),
        ¬Fits cap ((rows.set (frame.ranks.getD frame.choice 0) frame.savedRows).set other
          ((rows.set (frame.ranks.getD frame.choice 0) frame.savedRows).getD other 0 +
            sizes.getD (order.getD frame.pos 0) 0)) (sizesFrom sizes order (frame.pos + 1)) := by
      intro other hother
      rw [take_succ_getD hchoice] at hother
      rcases mem_append.mp hother with hold | hlast
      · exact hfailed other hold
      · cases mem_singleton.mp hlast
        rwa [← hrows]
    rw [← get?_erase_eq_update] at hloads hrest
    rw [backtrack]
    by_cases hlast : frame.ranks.length ≤ frame.choice + 1
    · rw [if_pos hlast]
      apply ih _ hrest
      rw [sizesFrom_of_lt hpos]
      apply hworth.not_fits hloads.length
      intro rank hrank
      apply hfailed' rank
      rwa [take_of_length_le hlast]
    · rw [if_neg hlast]
      exact Searching.place hnodup hpos ⟨hpos.le, hloads, hrest⟩ hworth (by omega) hfailed'

theorem candidates_worth (s : PackState κ) (index : Nat) :
    Worth sizes numShards cap s.rows index (candidates sizes numShards cap s index) :=
  ⟨(candidates_found s index).1, (candidates_found s index).2⟩

/-- What a search that is finished has found. -/
def Settled (sizes order : List Nat) (numShards cap : Nat) : Option (Dict Nat Nat) → Prop
  | some placed => IsPlacement sizes order numShards cap placed.get?
  | none => ¬Fits cap (replicate numShards 0) (sizesFrom sizes order 0)

omit [CostNumber κ] in
theorem Searching.finished (h : Searching sizes order numShards cap s)
    (hpos : s.pos = order.length) : IsPlacement sizes order numShards cap s.placed.get? := by
  have hloads := h.loads
  rw [hpos, take_length] at hloads
  refine ⟨hloads.placed, ?_⟩
  intro rank hrank
  rw [← hloads.counts rank hrank]
  exact hloads.within rank hrank

theorem packLoop_settled (hnodup : order.Nodup) {nodes : Nat} {result : Option (Dict Nat Nat)}
    (hs : Searching sizes order numShards cap s)
    (h : packLoop sizes costs order numShards cap nodes s = .ok result) :
    Settled sizes order numShards cap result := by
  induction nodes using Nat.strong_induction_on generalizing s with
  | _ nodes ih =>
    by_cases hpos : s.pos = order.length
    · have hresult : result = some s.placed := by
        cases nodes with
        | zero => simpa [packLoop, hpos, eq_comm] using h
        | succ nodes => simpa [packLoop, hpos, eq_comm] using h
      rw [hresult]
      exact hs.finished hpos
    · have hlt : s.pos < order.length := lt_of_le_of_ne hs.pos_le hpos
      cases nodes with
      | zero =>
        rw [packLoop, if_neg hpos] at h
        cases h
      | succ nodes =>
        have hworth : Worth sizes numShards cap s.rows (order.getD s.pos 0)
            (candidates sizes numShards cap s (order.getD s.pos 0)) := candidates_worth s _
        rw [packLoop, if_neg hpos] at h
        cases hranks : candidates sizes numShards cap s (order.getD s.pos 0) with
        | cons rank ranks =>
          rw [hranks] at h hworth
          refine ih nodes (Nat.lt_succ_self _) (hs.place hnodup hlt hworth ?_ ?_) h
          · exact Nat.succ_pos _
          · exact fun other hother => absurd hother not_mem_nil
        | nil =>
          rw [hranks] at h hworth
          have hnone : ¬Fits cap s.rows (sizesFrom sizes order s.pos) := by
            rw [sizesFrom_of_lt hlt]
            exact hworth.not_fits hs.loads.length fun rank hrank => absurd hrank not_mem_nil
          have hback := backtrack_searching costs s.rankCosts hnodup hs.stacked hnone
          dsimp only at h
          split at h
          · rename_i hend
            rw [hend] at hback
            cases h
            exact hback
          · rename_i s' hmore
            rw [hmore] at hback
            cases nodes with
            | zero => cases h
            | succ nodes => exact ih nodes (by omega) hback h

theorem searching_start : Searching sizes order numShards cap
    ({ rows := replicate numShards 0
       rankCosts := replicate numShards CostNumber.zero
       placed := Dict.empty
       stack := []
       pos := 0 } : PackState κ) := by
  refine ⟨zero_le, ?_, rfl, fun _ => rfl, rfl⟩
  constructor <;> simp +contextual [load]

theorem packGroups_settled (hnodup : order.Nodup) {result : Option (Dict Nat Nat)}
    (h : packGroups sizes costs order numShards cap = .ok result) :
    match result with
    | some placed => IsPlacement sizes order numShards cap placed.get?
    | none => ∀ rankOf, ¬IsPlacement sizes order numShards cap rankOf := by
  have hsettled := packLoop_settled hnodup searching_start h
  cases result with
  | some placed => exact hsettled
  | none =>
    intro rankOf hplacement
    apply hsettled
    refine fits_of_loads (?_ : ∀ index ∈ order, ∃ rank < _, rankOf index = some rank) ?_
    · simpa using hplacement.placed
    · intro rank hrank
      rw [length_replicate] at hrank
      simpa [hrank] using hplacement.within rank hrank

end Search

/-! ## The bins -/

theorem fillBins_getD {groups : List (List Nat)} {placed : Dict Nat Nat} {order : List Nat}
    {bins bins' : List (List Nat)} (h : order.foldlM (fillBin groups placed) bins = .ok bins') :
    bins'.length = bins.length ∧ ∀ rank < bins.length, bins'.getD rank [] =
      bins.getD rank [] ++ (order.filter (placed.get? · = some rank)).flatMap (groups.getD · []) := by
  refine foldlM_invariant
    (P := fun gone (b : List (List Nat)) => b.length = bins.length ∧
      ∀ rank < bins.length, b.getD rank [] =
        bins.getD rank [] ++ (gone.filter (placed.get? · = some rank)).flatMap (groups.getD · []))
    (by simp) ?_ h
  intro gone index b b' hP hstep
  obtain ⟨hlength, hgone⟩ := hP
  unfold fillBin at hstep
  split at hstep
  · cases hstep
  · rename_i chosen hchosen
    split_ifs at hstep with hlt
    cases hstep
    refine ⟨by rw [length_modify, hlength], ?_⟩
    intro rank hrank
    rw [filter_append, flatMap_append, ← append_assoc, ← hgone rank hrank]
    have hrank' : rank < b.length := by rwa [hlength]
    by_cases heq : chosen = rank
    · subst heq
      simp [hrank', hchosen]
    · simp [hrank', hchosen, heq]

/-- Every rank has its share of the rows, and every group is in one piece on one rank. -/
structure SharesOut (groups : List (List Nat)) (numShards numRows : Nat) (bins : List (List Nat)) :
    Prop where
  ranks : bins.length = numShards
  share : ∀ bin ∈ bins, bin.length * numShards = numRows
  intact : ∀ group ∈ groups, ∃ bin ∈ bins, group <:+: bin
  perm : bins.flatten.Perm (range numRows)

theorem getD_map_length (groups : List (List Nat)) (index : Nat) :
    (groups.map List.length).getD index 0 = (groups.getD index []).length := by
  rw [getD_eq_getElem?_getD, getElem?_map, getD_eq_getElem?_getD]
  cases groups[index]? <;> rfl

theorem SharesOut.of_placement {groups : List (List Nat)} {placed : Dict Nat Nat}
    {order : List Nat} {numShards numRows : Nat} {bins : List (List Nat)}
    (hplacement : IsPlacement (groups.map List.length) order numShards (numRows / numShards)
      placed.get?) (horder : order.Perm (range groups.length)) (hdvd : numRows % numShards = 0)
    (hfill : order.foldlM (fillBin groups placed) (replicate numShards []) = .ok bins)
    (hperm : bins.flatten.Perm (range numRows)) : SharesOut groups numShards numRows bins := by
  obtain ⟨hlength, hbins⟩ := fillBins_getD hfill
  rw [length_replicate] at hlength hbins
  have hbin : ∀ rank < numShards, bins.getD rank [] =
      (order.filter (placed.get? · = some rank)).flatMap (groups.getD · []) := by
    intro rank hrank
    rw [hbins rank hrank, getD_replicate _ hrank, nil_append]
  have hcap : numShards * (numRows / numShards) = numRows :=
    Nat.mul_div_cancel' (Nat.dvd_of_mod_eq_zero hdvd)
  have hle : ∀ size ∈ bins.map List.length, size ≤ numRows / numShards := by
    intro size hsize
    obtain ⟨bin, hmem, rfl⟩ := mem_map.mp hsize
    obtain ⟨rank, hrank, rfl⟩ := mem_iff_getElem.mp hmem
    have hrank' : rank < numShards := by rwa [← hlength]
    rw [← getD_eq_getElem _ [] hrank, hbin rank hrank', length_flatMap]
    have hwithin := hplacement.within rank hrank'
    simpa only [load, getD_map_length] using hwithin
  have hsum : (bins.map List.length).sum = (bins.map List.length).length * (numRows / numShards) := by
    rw [← List.length_flatten, hperm.length_eq, length_range, length_map, hlength, hcap]
  refine ⟨hlength, ?_, ?_, hperm⟩
  · intro bin hmem
    rw [eq_cap_of_sum_eq hle hsum _ (mem_map_of_mem hmem), mul_comm, hcap]
  · intro group hgroup
    obtain ⟨index, hindex, rfl⟩ := mem_iff_getElem.mp hgroup
    have hmem : index ∈ order := horder.mem_iff.mpr (mem_range.mpr hindex)
    obtain ⟨rank, hrank, hof⟩ := hplacement.placed index hmem
    have hrank' : rank < bins.length := by rwa [hlength]
    refine ⟨bins[rank], getElem_mem hrank', ?_⟩
    rw [← getD_eq_getElem _ [] hrank', hbin rank hrank, ← getD_eq_getElem _ [] hindex]
    have hchosen : index ∈ order.filter (placed.get? · = some rank) :=
      mem_filter.mpr ⟨hmem, by simpa using hof⟩
    exact infix_flatMap_of_mem hchosen (groups.getD · [])

section Assign

variable {γ κ : Type} [LinearOrder γ] [Inhabited γ] [CostNumber κ]

theorem assignZorroGroups_sharesOut {toFloat : γ → κ} {groups : List (List Nat)} {costs : List γ}
    {numShards numRows : Nat} {bins : List (List Nat)}
    (h : assignZorroGroups toFloat groups costs numShards numRows = .ok (some bins)) :
    SharesOut groups numShards numRows bins := by
  obtain ⟨hdvd, -, order, placed, horder, hpack, hbins⟩ := assignZorroGroups_eq_ok h
  have hnodup := horder.nodup_iff.mpr nodup_range
  exact SharesOut.of_placement (packGroups_settled hnodup hpack) horder hdvd hbins
    (assignZorroGroups_perm h)

/-- The search for a placement is sound and complete, for every order of distinct groups; hence
an assignment gives every rank its share of the rows in whole groups. -/
theorem packGroups_exact (toFloat : γ → κ) (groups : List (List Nat)) (costs : List γ)
    (order : List Nat) (numShards cap numRows : Nat) (hnodup : order.Nodup) :
    (∀ placed, packGroups (groups.map List.length) (costs.map toFloat) order numShards cap =
        .ok (some placed) → IsPlacement (groups.map List.length) order numShards cap placed.get?) ∧
    (packGroups (groups.map List.length) (costs.map toFloat) order numShards cap = .ok none →
      ∀ rankOf, ¬IsPlacement (groups.map List.length) order numShards cap rankOf) ∧
    (∀ bins, assignZorroGroups toFloat groups costs numShards numRows = .ok (some bins) →
      SharesOut groups numShards numRows bins) := by
  refine ⟨?_, ?_, ?_⟩
  · intro placed h
    exact packGroups_settled hnodup h
  · intro h
    exact packGroups_settled hnodup h
  · intro bins h
    exact assignZorroGroups_sharesOut h

end Assign

/-- Three groups on two ranks. -/
theorem packGroups_exact_three :
    assignZorroGroups (id : Int → Int) [[0, 1], [2], [3]] [5, 1, 1] 2 4 =
        .ok (some [[0, 1], [2, 3]]) ∧ SharesOut [[0, 1], [2], [3]] 2 4 [[0, 1], [2, 3]] := by
  have hassign : assignZorroGroups (id : Int → Int) [[0, 1], [2], [3]] [5, 1, 1] 2 4 =
      .ok (some [[0, 1], [2, 3]]) := by decide_cbv
  refine ⟨hassign, ?_⟩
  exact (packGroups_exact (id : Int → Int) [[0, 1], [2], [3]] [5, 1, 1] [0, 1, 2] 2 2 4
    (by decide)).2.2 _ hassign

/-- With no more rows than ranks there is no assignment, and no error. -/
theorem packGroups_few_rows :
    ¬∀ (groups : List (List Nat)) (costs : List Int) (numShards numRows : Nat) result,
      assignZorroGroups (id : Int → Int) groups costs numShards numRows = .ok result →
        ∃ bins, result = some bins ∧ SharesOut groups numShards numRows bins := by
  intro h
  have hnone : assignZorroGroups (id : Int → Int) [[0], [1]] [1, 1] 2 2 = .ok none := by decide
  obtain ⟨bins, hbins, -⟩ := h _ _ _ _ _ hnone
  cases hbins

end ArcticPlatform.Sharding
