import ArcticPlatform.Library.Bins
import Mathlib.Data.List.Nodup

/-!
# List scheduling

Jobs go one after the other to the machine that has the least load, the first of them when there
are several.

Main results:

- Theorem `foldlM_place`: a loop that puts jobs into bins fills them as the schedule says.
- Theorem `mem_schedule_iff`: the machines that are used when the longest jobs come first.
- Theorem `nodup_zip_iff`: labels are apart on every machine, or pairs of a label and a machine
  are.
-/

namespace ListScheduling

open Bins List

/-- The machine of each job. -/
def schedule : List Nat → List Nat → List Nat
  | _, [] => []
  | loads, job :: jobs =>
    let machine := (Bins.argmin loads).getD 0
    machine :: schedule (loads.modify machine (· + job)) jobs

/-- What is on a machine, in order. -/
def onMachine {α : Type*} (items : List α) (machines : List Nat) (i : Nat) : List α :=
  ((items.zip machines).filter (·.2 = i)).map Prod.fst

/-- The number of machines that jobs of some sizes use when the longest come first: each job
that takes time has a machine while there are some, and all others share one. -/
def machinesUsed (machines : Nat) (jobs : List Nat) : Nat :=
  min machines (jobs.countP (0 < ·) + if 0 ∈ jobs then 1 else 0)

/-- Put one job into the bin of least load. -/
def place {α : Type} (s : List (List α) × List Nat) (job : Nat × α) :
    Option (List (List α) × List Nat) := do
  let i ← Bins.argmin s.2
  some (s.1.modify i (· ++ [job.2]), s.2.modify i (· + job.1))

section Loads

variable {loads jobs : List Nat}

@[simp]
theorem length_schedule (loads jobs : List Nat) : (schedule loads jobs).length = jobs.length := by
  induction jobs generalizing loads with
  | nil => rfl
  | cons job jobs ih => simp [schedule, ih]

theorem exists_argmin (hpos : 0 < loads.length) : ∃ i < loads.length, Bins.argmin loads = some i :=
  argmin_isSome (ne_nil_of_length_pos hpos)

theorem schedule_lt (loads jobs : List Nat) (hpos : 0 < loads.length) :
    ∀ i ∈ schedule loads jobs, i < loads.length := by
  induction jobs generalizing loads with
  | nil => simp [schedule]
  | cons job jobs ih =>
    intro i hi
    obtain ⟨machine, hmachine, hargmin⟩ := exists_argmin hpos
    rw [schedule, hargmin, Option.getD_some] at hi
    rcases mem_cons.mp hi with rfl | hi
    · exact hmachine
    · have hrest := ih (loads.modify machine (· + job)) (by simpa using hpos) i hi
      simpa using hrest

end Loads

/-! ## Filling bins -/

section Place

variable {α : Type} {bins : List (List α)} {loads : List Nat}

@[simp]
theorem onMachine_nil (machines : List Nat) (i : Nat) : onMachine ([] : List α) machines i = [] := by
  simp [onMachine]

theorem onMachine_cons (item : α) (items : List α) (machine : Nat) (machines : List Nat) (i : Nat) :
    onMachine (item :: items) (machine :: machines) i =
      (if machine = i then [item] else []) ++ onMachine items machines i := by
  by_cases h : machine = i <;> simp [onMachine, h]

theorem onMachine_map {β : Type} (f : α → β) (items : List α) (machines : List Nat) (i : Nat) :
    onMachine (items.map f) machines i = (onMachine items machines i).map f := by
  rw [onMachine, onMachine, zip_map_left, filter_map, map_map, map_map]
  rfl

variable {machines : List Nat}

theorem onMachine_ne_nil {items : List α} (hlength : items.length = machines.length) {i : Nat} :
    onMachine items machines i ≠ [] ↔ i ∈ machines := by
  rw [onMachine, Ne, map_eq_nil_iff, filter_eq_nil_iff]
  push Not
  constructor
  · rintro ⟨e, he, hi⟩
    have heq : e.2 = i := by simpa using hi
    exact heq ▸ (of_mem_zip he).2
  · intro hi
    rw [← map_snd_zip hlength.ge] at hi
    obtain ⟨e, he, rfl⟩ := mem_map.mp hi
    exact ⟨e, he, by simp⟩

/-- The bins after a loop over the jobs. -/
theorem foldlM_place (bins : List (List α)) (loads : List Nat) (jobs : List (Nat × α))
    (hbins : bins.length = loads.length) (hpos : 0 < loads.length) :
    ∃ bins' loads', jobs.foldlM place (bins, loads) = some (bins', loads') ∧
      bins'.length = loads.length ∧ loads'.length = loads.length ∧
      ∀ i < loads.length, bins'.getD i [] = bins.getD i [] ++
        onMachine (jobs.map Prod.snd) (schedule loads (jobs.map Prod.fst)) i := by
  induction jobs generalizing bins loads with
  | nil => exact ⟨bins, loads, rfl, hbins, rfl, fun i _ => by simp⟩
  | cons job jobs ih =>
    obtain ⟨machine, hmachine, hargmin⟩ := exists_argmin hpos
    have hstep : place (bins, loads) job = some (bins.modify machine (· ++ [job.2]),
        loads.modify machine (· + job.1)) := by
      rw [place, hargmin]
      rfl
    obtain ⟨bins', loads', hrun, hlength, hlength', hbin⟩ :=
      ih (bins.modify machine (· ++ [job.2])) (loads.modify machine (· + job.1))
        (by simpa using hbins) (by simpa using hpos)
    rw [length_modify] at hlength hlength' hbin
    refine ⟨bins', loads', ?_, hlength, hlength', fun i hi => ?_⟩
    · rw [foldlM_cons, hstep]
      exact hrun
    · have hib : i < bins.length := hbins ▸ hi
      rw [hbin i hi, map_cons, map_cons, schedule, hargmin, Option.getD_some,
        onMachine_cons, ← append_assoc]
      congr 1
      by_cases h : machine = i <;> simp [getD_eq_getElem?_getD, h, hib]

theorem foldlM_place_nil {jobs : List (Nat × α)} {bins' : List (List α)} {loads' : List Nat}
    (h : jobs.foldlM place ([], []) = some (bins', loads')) : bins' = [] := by
  cases jobs with
  | nil =>
    cases h
    rfl
  | cons job jobs =>
    rw [foldlM_cons] at h
    obtain ⟨s, hs, -⟩ := Option.bind_eq_some_iff.mp h
    cases hs

/-- The bins together hold all items. -/
theorem flatMap_onMachine_perm (items : List α) {m : Nat} (hlength : items.length = machines.length)
    (hlt : ∀ i ∈ machines, i < m) :
    ((range m).flatMap (onMachine items machines)).Perm items := by
  induction items generalizing machines with
  | nil => simp
  | cons item items ih =>
    cases machines with
    | nil => cases hlength
    | cons machine machines =>
      have hrest := @ih machines (Nat.succ.inj hlength) fun i hi =>
        hlt i (mem_cons_of_mem _ hi)
      have hmem := mem_range.mpr (hlt machine mem_cons_self)
      have hone : ((range m).flatMap fun i => if machine = i then [item] else []) = [item] := by
        have hfilter : (range m).filter (· = machine) = [machine] := by
          rw [filter_eq, count_eq_one_of_mem nodup_range hmem, replicate_one]
        have hpieces : ∀ l : List Nat, (l.flatMap fun i => if machine = i then [item] else []) =
            (l.filter (· = machine)).map fun _ => item := by
          intro l
          induction l with
          | nil => rfl
          | cons i l ih =>
            rw [flatMap_cons, ih]
            by_cases h : machine = i <;> simp [h, eq_comm]
        rw [hpieces, hfilter, map_singleton]
      have hsplit := (flatMap_append_perm (range m)
        (fun i => if machine = i then [item] else []) (onMachine items machines)).symm
      rw [hone] at hsplit
      refine (Perm.of_eq ?_).trans (hsplit.trans (hrest.cons item))
      exact flatMap_congr fun i _ => onMachine_cons item items machine machines i

/-- Labels are apart on every machine if and only if no label and machine come together twice. -/
theorem nodup_zip_iff (labels : List α) {m : Nat} (hlt : ∀ i ∈ machines, i < m) :
    (labels.zip machines).Nodup ↔ ∀ i < m, (onMachine labels machines i).Nodup := by
  constructor
  · intro h i _
    rw [onMachine, Nodup, pairwise_map]
    refine (h.filter _).imp_of_mem fun {x y} hx hy hne heq => hne ?_
    have hx2 : x.2 = i := by simpa using of_mem_filter hx
    have hy2 : y.2 = i := by simpa using of_mem_filter hy
    exact Prod.ext heq (hx2.trans hy2.symm)
  · intro h
    refine pairwise_iff_forall_sublist.mpr fun {x y} hxy heq => ?_
    have hmem : x ∈ labels.zip machines := hxy.subset mem_cons_self
    have hi : x.2 < m := hlt x.2 (of_mem_zip hmem).2
    have hpair := (hxy.filter fun e => e.2 = x.2).map Prod.fst
    have hnodup := (h x.2 hi).sublist hpair
    simp [heq] at hnodup

end Place

/-! ## The machines that are used -/

section Used

variable {jobs : List Nat}

theorem argmin_append_replicate {busy : List Nat} {idle : Nat} (hbusy : ∀ load ∈ busy, 0 < load)
    (hidle : 0 < idle) : Bins.argmin (busy ++ replicate idle 0) = some busy.length := by
  have hmin : (busy ++ replicate idle 0).min? = some 0 := by
    rw [min?_eq_some_iff]
    exact ⟨mem_append_right _ (mem_replicate.mpr ⟨by omega, rfl⟩), by simp⟩
  rw [Bins.argmin, hmin, Option.bind_some, idxOf?_eq_some_iff]
  refine ⟨by simpa using hidle, by simp, fun j hj => ?_⟩
  have hmem : busy[j] ∈ busy := getElem_mem hj
  rw [getElem_append_left hj]
  have hload := hbusy _ hmem
  simpa using hload.ne'

/-- One machine after the other is used, as long as jobs take time. -/
theorem mem_schedule_append (busy : List Nat) (hbusy : ∀ load ∈ busy, 0 < load) (idle : Nat)
    (hsorted : jobs.Pairwise (· ≥ ·)) (hpos : 0 < busy.length + idle) (i : Nat) :
    (i < busy.length ∨ i ∈ schedule (busy ++ replicate idle 0) jobs) ↔ i < min (busy.length + idle)
        (busy.length + (jobs.countP (0 < ·) + if 0 ∈ jobs then 1 else 0)) := by
  induction jobs generalizing busy idle with
  | nil => simp [schedule]
  | cons job jobs ih =>
    have hle := (pairwise_cons.mp hsorted).1
    have hrest := (pairwise_cons.mp hsorted).2
    cases idle with
    | zero =>
      -- every machine has been used
      have hlt := schedule_lt busy (job :: jobs) (by simpa using hpos) i
      rw [replicate_zero, append_nil]
      constructor
      · rintro (h | h)
        · omega
        · have := hlt h
          omega
      · intro h
        omega
    | succ idle =>
      have hargmin := argmin_append_replicate hbusy (Nat.succ_pos idle)
      rw [schedule, hargmin, Option.getD_some, mem_cons]
      rcases Nat.eq_zero_or_pos job with rfl | hjob
      · -- all jobs that are left take no time
        have hzero : ∀ job ∈ jobs, job = 0 := fun job hmem => Nat.le_zero.mp (hle job hmem)
        have hcount : jobs.countP (0 < ·) = 0 := by
          rw [countP_eq_zero]
          intro job hmem
          simp [hzero job hmem]
        have hsame : (busy ++ replicate (idle + 1) 0).modify busy.length (· + 0) =
            busy ++ replicate (idle + 1) 0 := modify_id _ _
        have hind := ih busy hbusy (idle + 1) hrest hpos
        rw [hcount] at hind
        rw [hsame, countP_cons_of_neg (by simp), hcount, if_pos mem_cons_self, or_left_comm, hind]
        split_ifs <;> omega
      · have hnext : (busy ++ replicate (idle + 1) 0).modify busy.length (· + job) =
            (busy ++ [job]) ++ replicate idle 0 := by
          rw [replicate_succ, modify_eq_take_cons_drop (by simp)]
          simp
        have hbusy' : ∀ load ∈ busy ++ [job], 0 < load := by
          intro load hload
          rcases mem_append.mp hload with hload | hload
          · exact hbusy load hload
          · rwa [mem_singleton.mp hload]
        have hlen : 0 < (busy ++ [job]).length + idle := by
          rw [length_append, length_singleton]
          omega
        have hind := ih (busy ++ [job]) hbusy' idle hrest hlen
        have hiff : (0 ∈ job :: jobs) ↔ 0 ∈ jobs := by
          rw [mem_cons, or_iff_right hjob.ne]
        rw [length_append, length_singleton] at hind
        rw [hnext, countP_cons_of_pos (by simpa using hjob), if_congr hiff rfl rfl, ← or_assoc,
          ← Nat.lt_succ_iff_lt_or_eq, hind]
        omega

theorem machinesUsed_perm {machines : Nat} {jobs jobs' : List Nat} (h : jobs.Perm jobs') :
    machinesUsed machines jobs = machinesUsed machines jobs' := by
  rw [machinesUsed, machinesUsed, h.countP_eq, if_congr h.mem_iff rfl rfl]

/-- The machines that are used when the longest jobs come first. -/
theorem mem_schedule_iff {machines : Nat} (hpos : 0 < machines) (hsorted : jobs.Pairwise (· ≥ ·))
    (i : Nat) : i ∈ schedule (replicate machines 0) jobs ↔ i < machinesUsed machines jobs := by
  have h := mem_schedule_append [] (by simp) machines hsorted (by simpa using hpos) i
  simpa [machinesUsed] using h

theorem countP_range_lt {used machines : Nat} (hle : used ≤ machines) :
    (range machines).countP (· < used) = used := by
  obtain ⟨idle, rfl⟩ := Nat.exists_eq_add_of_le hle
  have hused : (range used).countP (· < used) = used := by
    have hall : ∀ i ∈ range used, decide (i < used) = true :=
      fun i hi => decide_eq_true (mem_range.mp hi)
    rw [countP_eq_length.mpr hall, length_range]
  rw [range_add, countP_append, hused, countP_map, countP_eq_zero.mpr (by simp)]
  rfl

end Used

end ListScheduling
