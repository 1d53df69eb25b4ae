import ArcticPlatform.LmHeadMasks.Interning

/-!
# Action masks: packing rows

The rows of a batch are laid end to end, and their payloads are packed into one.
`pack_row_action_masks` keeps the targets before the length of a row and moves
them by its offset; `pack_window_row_action_masks` keeps the sources that lie in
the row.  The two differ at the boundaries between rows: the first moves a target that
has no source in its row into the row before, and drops the target behind the last
source of the row.

Main results:

- Theorem `packRow_correct_iff`: when the packed payload says of every row what its
  own payload says.
- Theorem `packRow_crosses_rows`: two rows whose packed payload does not.
-/

namespace ArcticPlatform.LmHeadMasks

open Results Slices Tensors List

/-! ## Rows -/

/-- A row: its payload and its length. -/
abbrev Row := Option ActionMasks × Nat

/-- The rows with their packed offsets. -/
def offsetRows : Nat → List Row → List (Nat × Row)
  | _, [] => []
  | offset, row :: rows => (offset, row) :: offsetRows (offset + row.2) rows

/-- The entries of a payload that can be read. -/
def entriesOf (masks : Option ActionMasks) : List ActionMaskEntry :=
  (actionMaskEntries masks).toOption.getD []

/-- Rows with payloads of one vocabulary that are accepted by themselves. -/
structure Accepted (vocabSize : Int) (rows : List Row) : Prop where
  entries : ∀ row ∈ rows, ∃ es, actionMaskEntries row.1 = .ok es
  lmHead : ∀ row ∈ rows, ∃ lm, actionMasksToLmHead row.1 = .ok lm
  vocab : ∀ row ∈ rows, ∀ m, row.1 = some m → m.vocabSize = vocabSize

/-- The constraints that the rows have by themselves, on the sources that lie in them and moved by
their packed offsets. -/
def rowConstraints (rows : List Row) : Set Constraint :=
  { c | ∃ p ∈ offsetRows 0 rows, ∃ lm, actionMasksToLmHead p.2.1 = .ok lm ∧
    ∃ d ∈ constraints lm, d.1 < (p.2.2 : Int) ∧ c = (d.1 + (p.1 : Int), d.2) }

/-- A packed payload has the constraints of the rows and no others. -/
def PackedCorrectly (packed : Except Error (Option ActionMasks)) (rows : List Row) : Prop :=
  ∃ m lm, packed = .ok m ∧ actionMasksToLmHead m = .ok lm ∧
    ∀ c, c ∈ constraints lm ↔ c ∈ rowConstraints rows

/-- The packed payload of rows. -/
def packRows (rows : List Row) : Except Error (Option ActionMasks) :=
  packRowActionMasks (rows.map Prod.fst) (rows.map Prod.snd)

/-- The packed payload of rows that lie in the window as a whole. -/
def packWholeRows (rows : List Row) : Except Error (Option ActionMasks) :=
  packWindowRowActionMasks (rows.map Prod.fst) (rows.map fun row => arange row.2)

/-- The rows without their payloads. -/
def silence (rows : List Row) : List Row := rows.map fun row => (none, row.2)

/-! ## Offsets -/

theorem offsetRows_append (offset : Nat) (rows more : List Row) :
    offsetRows offset (rows ++ more) =
      offsetRows offset rows ++ offsetRows (offset + (rows.map Prod.snd).sum) more := by
  induction rows generalizing offset with
  | nil => simp [offsetRows]
  | cons row rows ih =>
    rw [cons_append, offsetRows, ih, offsetRows, cons_append, map_cons, sum_cons, add_assoc]

variable {rows : List Row} {p : Nat × Row}

theorem mem_offsetRows {offset : Nat} :
    p ∈ offsetRows offset rows ↔ ∃ before after, rows = before ++ p.2 :: after ∧
      p.1 = offset + (before.map Prod.snd).sum := by
  induction rows generalizing offset with
  | nil => simp [offsetRows]
  | cons row rows ih =>
    rw [offsetRows, mem_cons]
    constructor
    · rintro (rfl | hp)
      · exact ⟨[], rows, rfl, by simp⟩
      · obtain ⟨before, after, hrows, hoffset⟩ := ih.mp hp
        refine ⟨row :: before, after, by rw [hrows]; rfl, ?_⟩
        rw [hoffset, map_cons, sum_cons, add_assoc]
    · rintro ⟨before, after, hrows, hoffset⟩
      cases before with
      | nil =>
        rw [nil_append] at hrows
        cases hrows
        left
        ext
        · simpa using hoffset
        · rfl
        · rfl
      | cons row' before =>
        rw [cons_append] at hrows
        cases hrows
        right
        apply ih.mpr
        refine ⟨before, after, rfl, ?_⟩
        rw [hoffset, map_cons, sum_cons, add_assoc]

theorem offset_add_le (h : p ∈ offsetRows 0 rows) : p.1 + p.2.2 ≤ (rows.map Prod.snd).sum := by
  obtain ⟨before, after, hrows, hoffset⟩ := mem_offsetRows.mp h
  rw [hrows, hoffset, map_append, map_cons, sum_append, sum_cons]
  omega

theorem mem_of_mem_offsetRows {offset : Nat} (h : p ∈ offsetRows offset rows) : p.2 ∈ rows := by
  obtain ⟨before, after, hrows, -⟩ := mem_offsetRows.mp h
  rw [hrows]
  simp

/-! ## Packed entries -/

section Pack

variable {vocabSize : Int} {rows : List Row}

variable {row : Row}

section

variable (h : Accepted vocabSize rows)
include h

theorem Accepted.entriesOf_eq (hrow : row ∈ rows) :
    actionMaskEntries row.1 = .ok (entriesOf row.1) := by
  obtain ⟨es, hes⟩ := h.entries row hrow
  rw [entriesOf, hes]
  rfl

theorem Accepted.sublist {before after : List Row} (hrows : rows = before ++ row :: after) :
    Accepted vocabSize (silence before ++ row :: silence after) := by
  have hmem : ∀ row' ∈ silence before ++ row :: silence after, row' = row ∨ row'.1 = none := by
    intro row' hrow'
    rcases mem_append.mp hrow' with hrow' | hrow'
    · obtain ⟨r, -, rfl⟩ := mem_map.mp hrow'
      exact .inr rfl
    · rcases mem_cons.mp hrow' with rfl | hrow'
      · exact .inl rfl
      · obtain ⟨r, -, rfl⟩ := mem_map.mp hrow'
        exact .inr rfl
  have hrow : row ∈ rows := by
    rw [hrows]
    simp
  constructor
  · intro row' hrow'
    rcases hmem row' hrow' with rfl | hnone
    · exact h.entries row' hrow
    · exact ⟨[], by rw [hnone]; rfl⟩
  · intro row' hrow'
    rcases hmem row' hrow' with rfl | hnone
    · exact h.lmHead row' hrow
    · exact ⟨none, by rw [hnone]; rfl⟩
  · intro row' hrow' m hm
    rcases hmem row' hrow' with rfl | hnone
    · exact h.vocab row' hrow m hm
    · rw [hnone] at hm
      cases hm

/-- What packing makes of rows whose entries are `part`. -/
def packedEntries (part : Nat → Row → List ActionMaskEntry) (offset : Nat) (rows : List Row) :
    List ActionMaskEntry := (offsetRows offset rows).flatMap fun p => part p.1 p.2

/-- The loop over the rows. -/
theorem foldlM_add {f : Nat → Nat → ActionMasks → Except Error (List ActionMaskEntry)}
    {part : Nat → Row → List ActionMaskEntry}
    (hpart : ∀ row ∈ rows, ∀ offset m, row.1 = some m → f offset row.2 m = .ok (part offset row))
    (hnone : ∀ offset n, part offset (none, n) = []) (s : Packing)
    (hs : ∀ v, s.vocabSize = some v → v = vocabSize) :
    ∃ r : Packing, rows.foldlM (fun s row => s.add row.1 row.2 (f s.offset row.2)) s = .ok r ∧
      r.offset = s.offset + (rows.map Prod.snd).sum ∧ (∀ v, r.vocabSize = some v → v = vocabSize) ∧
      (r.vocabSize = none → s.vocabSize = none ∧ packedEntries part s.offset rows = []) ∧
      r.entries = s.entries ++ packedEntries part s.offset rows := by
  induction rows generalizing s with
  | nil => exact ⟨s, rfl, by simp, hs, fun hv => ⟨hv, rfl⟩, by simp [packedEntries, offsetRows]⟩
  | cons row rows ih =>
    have hrows : Accepted vocabSize rows :=
      ⟨fun r hr => h.entries r (mem_cons_of_mem _ hr),
        fun r hr => h.lmHead r (mem_cons_of_mem _ hr), fun r hr => h.vocab r (mem_cons_of_mem _ hr)⟩
    have hcons : ∀ offset, packedEntries part offset (row :: rows) =
        part offset row ++ packedEntries part (offset + row.2) rows := fun offset => rfl
    have ih := ih hrows fun r hr => hpart r (mem_cons_of_mem _ hr)
    rw [foldlM_cons]
    obtain ⟨masks, n⟩ := row
    cases masks with
    | none =>
      obtain ⟨r, hr, hoffset, hvocab, hempty, hentries⟩ := ih { s with offset := s.offset + n } hs
      refine ⟨r, hr, ?_, hvocab, ?_, ?_⟩
      · rw [hoffset, map_cons, sum_cons, add_assoc]
      · rw [hcons, hnone]
        exact hempty
      · rw [hcons, hnone]
        exact hentries
    | some m =>
      have hm : m.vocabSize = vocabSize := h.vocab _ mem_cons_self m rfl
      obtain ⟨es, hes⟩ := h.entries _ mem_cons_self
      have hadd : s.add (some m) n (f s.offset n) = .ok
          { offset := s.offset + n
            vocabSize := some vocabSize
            entries := s.entries ++ part s.offset (some m, n) } := by
        have hsame : s.vocabSize.any (· ≠ m.vocabSize) = false ∧
            s.vocabSize.getD m.vocabSize = vocabSize := by
          cases hv : s.vocabSize with
          | none => simp [hm]
          | some v => simp [hs v hv, hm]
        rw [Packing.add, normalize_eq_ok.mpr ⟨(entries_eq_ok hes).1, rfl⟩, bind_ok]
        dsimp only
        rw [hsame.1, if_neg Bool.false_ne_true, hpart _ mem_cons_self s.offset m rfl, bind_ok,
          hsame.2]
      rw [hadd, bind_ok]
      obtain ⟨r, hr, hoffset, hvocab, hempty, hentries⟩ := ih
        { offset := s.offset + n
          vocabSize := some vocabSize
          entries := s.entries ++ part s.offset (some m, n) } fun v hv => (Option.some.inj hv).symm
      refine ⟨r, hr, ?_, hvocab, ?_, ?_⟩
      · rw [hoffset, map_cons, sum_cons, add_assoc]
      · intro hv
        exact absurd (hempty hv).1 (by simp)
      · rw [hcons, hentries, append_assoc]

/-- The entries of a row at kept positions, moved by its offset. -/
def keptPart (keep : Int → Nat → Bool) (offset : Nat) (row : Row) : List ActionMaskEntry :=
  ((entriesOf row.1).filter fun e => keep e.position row.2).map fun e =>
    { e with position := e.position + offset }

/-- What `pack_row_action_masks` keeps of a row. -/
def keptInRow (position : Int) (length : Nat) : Bool := position < (length : Int)

/-- What `pack_window_row_action_masks` keeps of a row that lies in the window as a whole. -/
def keptInWindow (position : Int) (length : Nat) : Bool :=
  1 ≤ position ∧ position ≤ (length : Int)

theorem packRows_eq :
    packRows rows = actionMasksFromEntries (rows.map Prod.snd).sum vocabSize
      (packedEntries (keptPart keptInRow) 0 rows) := by
  have hpart : ∀ row ∈ rows, ∀ offset m, row.1 = some m →
      rowEntries offset row.2 m = .ok (keptPart keptInRow offset row) := by
    intro row hrow offset m hm
    rw [rowEntries, ← hm, h.entriesOf_eq hrow]
    rfl
  obtain ⟨r, hr, hoffset, hvocab, hempty, hentries⟩ :=
    foldlM_add h hpart (fun _ _ => rfl) Packing.init (by simp [Packing.init])
  have hzip : (rows.map Prod.fst).zip (rows.map Prod.snd) = rows := by
    rw [zip_map', map_id']
  rw [packRows, packRowActionMasks, if_neg (by simp), hzip, hr, bind_ok]
  cases hv : r.vocabSize with
  | none =>
    have hnil : packedEntries (keptPart keptInRow) 0 rows = [] := (hempty hv).2
    rw [hnil]
    rfl
  | some v =>
    rw [hvocab v hv, hentries, hoffset]
    simp [Packing.init]

end

theorem windowEntries_arange {m : ActionMasks} {es : List ActionMaskEntry}
    (hes : actionMaskEntries (some m) = .ok es) (offset n : Nat) :
    windowEntries offset (arange n) m =
      .ok ((es.filter fun e => 1 ≤ e.position ∧ e.position ≤ (n : Int)).map fun e =>
        { e with position := e.position + offset }) := by
  cases n with
  | zero =>
    have hnil : (es.filter fun e => 1 ≤ e.position ∧ e.position ≤ ((0 : Nat) : Int)) = [] := by
      rw [filter_eq_nil_iff]
      intro e _
      simp only [decide_eq_true_iff]
      omega
    rw [hnil]
    rfl
  | succ n =>
    have hhead : (arange (n + 1)).head? = some 0 := by simp [arange, range_succ_eq_map]
    have hlast : (arange (n + 1)).getLast? = some (n : Int) := by simp [arange, range_succ]
    have hlength : (arange (n + 1)).length = n + 1 := by simp [arange]
    rw [windowEntries, hhead, hlast]
    dsimp only
    rw [if_neg (by rw [hlength]; push_cast; omega), hes, bind_ok, hlength]
    have hfilter : (es.filter fun e => 0 ≤ e.position - 1 - 0 ∧
        e.position - 1 - 0 < ((n + 1 : Nat) : Int)) =
        es.filter fun e => 1 ≤ e.position ∧ e.position ≤ ((n + 1 : Nat) : Int) := by
      apply filter_congr
      intro e _
      apply decide_eq_decide.mpr
      omega
    rw [hfilter]
    congr 1
    apply map_congr_left
    intro e _
    congr 1
    omega

theorem packWholeRows_eq (h : Accepted vocabSize rows) :
    packWholeRows rows = actionMasksFromEntries ((rows.map Prod.snd).sum + 1) vocabSize
      (packedEntries (keptPart keptInWindow) 0 rows) := by
  have hpart : ∀ row ∈ rows, ∀ offset m, row.1 = some m →
      windowEntries offset (arange row.2) m = .ok (keptPart keptInWindow offset row) := by
    intro row hrow offset m hm
    have hes := h.entriesOf_eq hrow
    rw [hm] at hes
    rw [windowEntries_arange hes, keptPart, hm]
    rfl
  obtain ⟨r, hr, hoffset, hvocab, hempty, hentries⟩ :=
    foldlM_add (f := fun offset n => windowEntries offset (arange n)) h hpart (fun _ _ => rfl)
      Packing.init (by simp [Packing.init])
  have hzip : (rows.map Prod.fst).zip (rows.map fun row => arange row.2) =
      rows.map fun row => (row.1, arange row.2) := zip_map'
  have hwidth : ∀ n, (arange n).length = n := by simp [arange]
  rw [packWholeRows, packWindowRowActionMasks, hzip, foldlM_map]
  simp only [hwidth]
  rw [hr, bind_ok, if_neg (by simp)]
  cases hv : r.vocabSize with
  | none =>
    have hnil : packedEntries (keptPart keptInWindow) 0 rows = [] := (hempty hv).2
    rw [hnil]
    rfl
  | some v =>
    rw [hvocab v hv, hentries, hoffset]
    simp [Packing.init]

theorem mem_packedEntries {part : Nat → Row → List ActionMaskEntry} {e : ActionMaskEntry} :
    e ∈ packedEntries part 0 rows ↔ ∃ p ∈ offsetRows 0 rows, e ∈ part p.1 p.2 := mem_flatMap

theorem mem_rowConstraints (h : Accepted vocabSize rows) (c : Constraint) :
    c ∈ rowConstraints rows ↔ ∃ p ∈ offsetRows 0 rows, ∃ e ∈ entriesOf p.2.1,
      1 ≤ e.position ∧ e.position ≤ p.2.2 ∧
      c = (e.position + p.1 - 1, e.modeAllow, e.ids.toFinset) := by
  have hrow : ∀ p ∈ offsetRows 0 rows, ∃ lm, actionMasksToLmHead p.2.1 = .ok lm ∧
      ∀ d, d ∈ constraints lm ↔ ∃ e ∈ entriesOf p.2.1, 1 ≤ e.position ∧
        d = (e.position - 1, e.modeAllow, e.ids.toFinset) := by
    intro p hp
    have hp := mem_of_mem_offsetRows hp
    obtain ⟨lm, hlm⟩ := h.lmHead _ hp
    have hes := h.entriesOf_eq hp
    refine ⟨lm, hlm, ?_⟩
    generalize entriesOf p.2.1 = es at hes
    cases hmasks : p.2.1 with
    | none =>
      rw [hmasks] at hlm hes
      cases hlm
      cases hes
      simp [constraints]
    | some m =>
      rw [hmasks] at hlm hes
      exact mem_constraints_toLmHead hes hlm
  constructor
  · rintro ⟨p, hp, lm, hlm, d, hd, hlt, rfl⟩
    obtain ⟨lm', hlm', hmem⟩ := hrow p hp
    rw [hlm] at hlm'
    cases hlm'
    obtain ⟨e, he, hpos, rfl⟩ := (hmem d).mp hd
    refine ⟨p, hp, e, he, hpos, by dsimp only at hlt; omega, ?_⟩
    dsimp only
    congr 1
    omega
  · rintro ⟨p, hp, e, he, hpos, hle, rfl⟩
    obtain ⟨lm, hlm, hmem⟩ := hrow p hp
    refine ⟨p, hp, lm, hlm, _, (hmem _).mpr ⟨e, he, hpos, rfl⟩, ?_, ?_⟩
    · dsimp only
      omega
    · dsimp only
      congr 1
      omega

/-! ## Correctness -/

theorem Accepted.tokens (h : Accepted vocabSize rows) {p : Nat × Row} (hp : p ∈ offsetRows 0 rows) :
    ∀ e ∈ entriesOf p.2.1, ∀ t ∈ e.ids, 0 ≤ t ∧ t < vocabSize := by
  have hrow := mem_of_mem_offsetRows hp
  have hes := h.entriesOf_eq hrow
  cases hmasks : p.2.1 with
  | none => simp [entriesOf, actionMaskEntries, normalizeActionMasks, bind_ok, Except.toOption]
  | some m =>
    rw [hmasks] at hes
    rw [← h.vocab _ hrow m hmasks]
    exact entries_tokens hes

theorem Accepted.sorted (h : Accepted vocabSize rows) {p : Nat × Row} (hp : p ∈ offsetRows 0 rows) :
    (entriesOf p.2.1).Pairwise fun a b => a.position < b.position := by
  have hes := h.entriesOf_eq (mem_of_mem_offsetRows hp)
  cases hmasks : p.2.1 with
  | none => simp [entriesOf, actionMaskEntries, normalizeActionMasks, bind_ok, Except.toOption]
  | some m =>
    rw [hmasks] at hes
    exact entries_sorted hes

/-- Constrained targets of different rows are different after the rows are packed. -/
def DistinctTargets (keep : Int → Nat → Bool) (rows : List Row) : Prop :=
  (offsetRows 0 rows).Pairwise fun p q => ∀ e ∈ entriesOf p.2.1, ∀ e' ∈ entriesOf q.2.1,
    e.ids ≠ [] → e'.ids ≠ [] → keep e.position p.2.2 → keep e'.position q.2.2 →
    e.position + (p.1 : Int) ≠ e'.position + q.1

theorem mem_keptPart {keep : Int → Nat → Bool} {offset : Nat} {e : ActionMaskEntry} :
    e ∈ keptPart keep offset row ↔ ∃ e' ∈ entriesOf row.1, keep e'.position row.2 ∧
      e = { e' with position := e'.position + offset } := by
  simp only [keptPart, mem_map, mem_filter, and_assoc, eq_comm]

theorem nodup_kept (h : Accepted vocabSize rows) (keep : Int → Nat → Bool) :
    ((withTokens (packedEntries (keptPart keep) 0 rows)).map (·.position)).Nodup ↔
      DistinctTargets keep rows := by
  have hrow : ∀ p ∈ offsetRows 0 rows, (keptPart keep p.1 p.2).Pairwise fun a b =>
      a.ids ≠ [] → b.ids ≠ [] → a.position ≠ b.position := by
    intro p hp
    rw [keptPart, pairwise_map]
    apply ((h.sorted hp).sublist filter_sublist).imp
    intro a b hab _ _
    simp only
    omega
  rw [List.Nodup, pairwise_map, withTokens, pairwise_filter]
  simp only [decide_eq_true_iff]
  rw [packedEntries, pairwise_flatMap, and_iff_right hrow, DistinctTargets]
  apply List.Pairwise.iff
  intro p q
  constructor
  · intro hpq e he e' he' hids hids' hkeep hkeep'
    exact hpq _ (mem_keptPart.mpr ⟨e, he, hkeep, rfl⟩) _ (mem_keptPart.mpr ⟨e', he', hkeep', rfl⟩)
      hids hids'
  · intro hpq a ha b hb hids hids'
    obtain ⟨e, he, hkeep, rfl⟩ := mem_keptPart.mp ha
    obtain ⟨e', he', hkeep', rfl⟩ := mem_keptPart.mp hb
    exact hpq e he e' he' hids hids' hkeep hkeep'

/-- The constraints that are packed. -/
def keptConstraints (keep : Int → Nat → Bool) (rows : List Row) : Set Constraint :=
  { c | ∃ p ∈ offsetRows 0 rows, ∃ e ∈ entriesOf p.2.1, e.ids ≠ [] ∧ keep e.position p.2.2 ∧
    1 ≤ e.position + (p.1 : Int) ∧ c = (e.position + p.1 - 1, e.modeAllow, e.ids.toFinset) }

/-- A packed payload has the constraints of the rows if the packed targets are distinct and the
packed constraints are those of the rows. -/
theorem packedCorrectly_iff {packed : Except Error (Option ActionMasks)} {keep : Int → Nat → Bool}
    {seqLen : Int} (h : Accepted vocabSize rows)
    (hpacked : packed = actionMasksFromEntries seqLen vocabSize
      (packedEntries (keptPart keep) 0 rows))
    (hseqLen : ∀ p ∈ offsetRows 0 rows, ∀ position, keep position p.2.2 → position + p.1 < seqLen) :
    PackedCorrectly packed rows ↔
      DistinctTargets keep rows ∧ keptConstraints keep rows = rowConstraints rows := by
  have hentries : ∀ {P : ActionMaskEntry → Prop},
      (∃ e ∈ packedEntries (keptPart keep) 0 rows, P e) ↔ ∃ p ∈ offsetRows 0 rows,
        ∃ e ∈ entriesOf p.2.1, keep e.position p.2.2 ∧
          P { e with position := e.position + p.1 } := by
    intro P
    constructor
    · rintro ⟨e, he, hP⟩
      obtain ⟨p, hp, he⟩ := mem_packedEntries.mp he
      obtain ⟨e', he', hkeep, rfl⟩ := mem_keptPart.mp he
      exact ⟨p, hp, e', he', hkeep, hP⟩
    · rintro ⟨p, hp, e, he, hkeep, hP⟩
      exact ⟨_, mem_packedEntries.mpr ⟨p, hp, mem_keptPart.mpr ⟨e, he, hkeep, rfl⟩⟩, hP⟩
  have hmem : ∀ {r lm}, actionMasksFromEntries seqLen vocabSize
      (packedEntries (keptPart keep) 0 rows) = .ok r → actionMasksToLmHead r = .ok lm →
      ∀ c, c ∈ constraints lm ↔ c ∈ keptConstraints keep rows := by
    intro r lm hr hlm c
    rw [mem_constraints_fromEntries hr hlm, hentries]
    simp only [keptConstraints, Set.mem_ofPred_eq]
    constructor
    · rintro ⟨p, hp, e, he, hkeep, hids, hone, hc⟩
      exact ⟨p, hp, e, he, hids, hkeep, hone, hc⟩
    · rintro ⟨p, hp, e, he, hids, hkeep, hone, hc⟩
      exact ⟨p, hp, e, he, hkeep, hids, hone, hc⟩
  constructor
  · rintro ⟨r, lm, hr, hlm, hconstraints⟩
    rw [hpacked] at hr
    refine ⟨(nodup_kept h keep).mp (fromEntries_nodup hr), ?_⟩
    ext c
    rw [← hmem hr hlm, hconstraints]
  · rintro ⟨hdistinct, hconstraints⟩
    have hall : ∀ e ∈ withTokens (packedEntries (keptPart keep) 0 rows),
        e.position < seqLen ∧ ∀ t ∈ e.ids, 0 ≤ t ∧ t < vocabSize := by
      intro e he
      obtain ⟨p, hp, he⟩ := mem_packedEntries.mp (mem_of_mem_filter he)
      obtain ⟨e', he', hkeep, rfl⟩ := mem_keptPart.mp he
      exact ⟨hseqLen p hp _ hkeep, h.tokens hp e' he'⟩
    obtain ⟨r, lm, hr, hlm⟩ := fromEntries_isOk ((nodup_kept h keep).mpr hdistinct)
      (fun e he => (hall e he).1) fun e he => (hall e he).2
    refine ⟨r, lm, hpacked.trans hr, hlm, ?_⟩
    intro c
    rw [hmem hr hlm, hconstraints]

theorem offsetRows_pairwise (offset : Nat) (rows : List Row) :
    (offsetRows offset rows).Pairwise fun p q => p.1 + p.2.2 ≤ q.1 := by
  induction rows generalizing offset with
  | nil => exact List.Pairwise.nil
  | cons row rows ih =>
    rw [offsetRows, pairwise_cons]
    refine ⟨?_, ih _⟩
    intro q hq
    obtain ⟨before, after, -, hoffset⟩ := mem_offsetRows.mp hq
    rw [hoffset]
    exact Nat.le_add_right _ _

/-- When the packed payload says what the payloads of the rows say.  No target of a row that the
code keeps has an empty set, no constrained target is the one behind the last source of its row, no
constrained target without a source in its row has one in the packed sequence, and the others of
that kind are distinct. -/
structure SourcesInRows (rows : List Row) : Prop where
  nonempty : ∀ p ∈ offsetRows 0 rows, ∀ e ∈ entriesOf p.2.1,
    1 ≤ e.position → e.position ≤ p.2.2 → e.ids ≠ []
  last : ∀ p ∈ offsetRows 0 rows, ∀ e ∈ entriesOf p.2.1, e.ids ≠ [] → e.position = p.2.2 → p.2.2 = 0
  first : ∀ p ∈ offsetRows 0 rows, ∀ e ∈ entriesOf p.2.1, e.ids ≠ [] →
    e.position ≤ 0 → e.position < p.2.2 → e.position + p.1 ≤ 0
  distinct : (offsetRows 0 rows).Pairwise fun p q => ∀ e ∈ entriesOf p.2.1,
    ∀ e' ∈ entriesOf q.2.1, e.ids ≠ [] → e'.ids ≠ [] → e.position ≤ 0 → e.position < p.2.2 →
    e'.position ≤ 0 → e'.position < q.2.2 → e.position + p.1 ≠ e'.position + q.1

theorem packRows_correctly_iff (h : Accepted vocabSize rows) :
    PackedCorrectly (packRows rows) rows ↔ DistinctTargets keptInRow rows ∧
      keptConstraints keptInRow rows = rowConstraints rows := by
  apply packedCorrectly_iff h (packRows_eq h)
  intro p hp position hkeep
  have := offset_add_le hp
  simp only [keptInRow, decide_eq_true_iff] at hkeep
  omega

theorem packRows_correctly (h : Accepted vocabSize rows) (hrows : SourcesInRows rows) :
    PackedCorrectly (packRows rows) rows := by
  rw [packRows_correctly_iff h]
  constructor
  · apply ((offsetRows_pairwise 0 rows).and hrows.distinct).imp_of_mem
    rintro p q hp hq ⟨hle, hpq⟩ e he e' he' hids hids' hkeep hkeep' heq
    have hfirst' := hrows.first q hq e' he' hids'
    simp only [keptInRow, decide_eq_true_iff] at hkeep hkeep'
    have := hpq e he e' he' hids hids'
    omega
  · ext c
    rw [mem_rowConstraints h]
    constructor
    · rintro ⟨p, hp, e, he, hids, hkeep, hone, rfl⟩
      have hfirst := hrows.first p hp e he hids
      simp only [keptInRow, decide_eq_true_iff] at hkeep
      exact ⟨p, hp, e, he, by omega, by omega, rfl⟩
    · rintro ⟨p, hp, e, he, hone, hle, rfl⟩
      have hids := hrows.nonempty p hp e he hone hle
      have hlast := hrows.last p hp e he hids
      refine ⟨p, hp, e, he, hids, ?_, by omega, rfl⟩
      simp only [keptInRow, decide_eq_true_iff]
      omega

theorem packWholeRows_correctly (h : Accepted vocabSize rows)
    (hnonempty : ∀ p ∈ offsetRows 0 rows, ∀ e ∈ entriesOf p.2.1,
      1 ≤ e.position → e.position ≤ p.2.2 → e.ids ≠ []) :
    PackedCorrectly (packWholeRows rows) rows := by
  rw [packedCorrectly_iff h (packWholeRows_eq h)]
  · constructor
    · apply (offsetRows_pairwise 0 rows).imp
      intro p q hle e he e' he' _ _ hkeep hkeep'
      simp only [keptInWindow, decide_eq_true_iff] at hkeep hkeep'
      omega
    · ext c
      rw [mem_rowConstraints h]
      constructor
      · rintro ⟨p, hp, e, he, hids, hkeep, hone, rfl⟩
        simp only [keptInWindow, decide_eq_true_iff] at hkeep
        exact ⟨p, hp, e, he, hkeep.1, hkeep.2, rfl⟩
      · rintro ⟨p, hp, e, he, hone, hle, rfl⟩
        refine ⟨p, hp, e, he, hnonempty p hp e he hone hle, ?_, by omega, rfl⟩
        simp only [keptInWindow, decide_eq_true_iff]
        exact ⟨hone, hle⟩
  · intro p hp position hkeep
    have := offset_add_le hp
    simp only [keptInWindow, decide_eq_true_iff] at hkeep
    omega

/-! ## One row at a time -/

section OneRow

variable {row : Row} {before after : List Row}

theorem sum_silence (rows : List Row) :
    ((silence rows).map Prod.snd).sum = (rows.map Prod.snd).sum := by
  rw [silence, map_map]
  rfl

theorem entriesOf_silence {offset : Nat} {p : Nat × Row} (hp : p ∈ offsetRows offset (silence rows)) :
    entriesOf p.2.1 = [] := by
  obtain ⟨r, -, hr⟩ := mem_map.mp (mem_of_mem_offsetRows hp)
  rw [← hr]
  rfl

theorem eq_of_entriesOf {p : Nat × Row}
    (hp : p ∈ offsetRows 0 (silence before ++ row :: silence after)) {e : ActionMaskEntry}
    (he : e ∈ entriesOf p.2.1) : p = ((before.map Prod.snd).sum, row) := by
  rw [offsetRows_append, offsetRows, sum_silence, zero_add] at hp
  rcases mem_append.mp hp with hp | hp
  · rw [entriesOf_silence hp] at he
    cases he
  · rcases mem_cons.mp hp with hp | hp
    · exact hp
    · rw [entriesOf_silence hp] at he
      cases he

theorem SourcesInRows.single (h : SourcesInRows rows) (hrows : rows = before ++ row :: after) :
    SourcesInRows (silence before ++ row :: silence after) := by
  have hmem : ((before.map Prod.snd).sum, row) ∈ offsetRows 0 rows :=
    mem_offsetRows.mpr ⟨before, after, hrows, by simp⟩
  constructor
  · intro p hp e he
    obtain rfl := eq_of_entriesOf hp he
    exact h.nonempty _ hmem e he
  · intro p hp e he
    obtain rfl := eq_of_entriesOf hp he
    exact h.last _ hmem e he
  · intro p hp e he
    obtain rfl := eq_of_entriesOf hp he
    exact h.first _ hmem e he
  · rw [offsetRows_append, offsetRows, pairwise_append, pairwise_cons]
    refine ⟨?_, ⟨?_, ?_⟩, ?_⟩
    · apply pairwise_of_forall_mem_list
      intro p hp q _ e he
      rw [entriesOf_silence hp] at he
      cases he
    · intro q hq e _ e' he'
      rw [entriesOf_silence hq] at he'
      cases he'
    · apply pairwise_of_forall_mem_list
      intro p hp q _ e he
      rw [entriesOf_silence hp] at he
      cases he
    · intro p hp q _ e he
      rw [entriesOf_silence hp] at he
      cases he

/-- What a row that is packed correctly by itself shows about its entries. -/
theorem row_of_packedCorrectly
    (h : Accepted vocabSize (silence before ++ row :: silence after))
    (hpacked : PackedCorrectly (packRows (silence before ++ row :: silence after))
      (silence before ++ row :: silence after)) :
    ∀ e ∈ entriesOf row.1, (1 ≤ e.position → e.position ≤ row.2 → e.ids ≠ []) ∧
      (e.ids ≠ [] → e.position = row.2 → row.2 = 0) ∧
      (e.ids ≠ [] → e.position ≤ 0 → e.position < row.2 →
        e.position + ((before.map Prod.snd).sum : Nat) ≤ 0) := by
  obtain ⟨-, hconstraints⟩ := (packRows_correctly_iff h).mp hpacked
  have hmem : ((before.map Prod.snd).sum, row) ∈
      offsetRows 0 (silence before ++ row :: silence after) :=
    mem_offsetRows.mpr ⟨silence before, silence after, rfl, by simp [sum_silence]⟩
  intro e he
  -- A constraint of the row is packed, hence by an entry of the row at the same position.
  have hpackedEntry : 1 ≤ e.position → e.position ≤ row.2 → ∃ e' ∈ entriesOf row.1,
      e'.ids ≠ [] ∧ e'.position < row.2 ∧ e'.position = e.position ∧
      e'.ids.toFinset = e.ids.toFinset := by
    intro hone hle
    have hc := (mem_rowConstraints h _).mpr ⟨_, hmem, e, he, hone, hle, rfl⟩
    rw [← hconstraints] at hc
    obtain ⟨p, hp, e', he', hids, hkeep, -, heq⟩ := hc
    obtain rfl := eq_of_entriesOf hp he'
    simp only [Prod.mk.injEq, keptInRow, decide_eq_true_iff] at heq hkeep
    exact ⟨e', he', hids, hkeep, by omega, heq.2.2.symm⟩
  refine ⟨?_, ?_, ?_⟩
  · intro hone hle hnil
    obtain ⟨e', -, hids, -, -, heq⟩ := hpackedEntry hone hle
    rw [hnil, toFinset_nil, toFinset_eq_empty_iff] at heq
    exact hids heq
  · intro _ hlast
    by_contra hne
    obtain ⟨e', -, -, hlt, heq, -⟩ := hpackedEntry (by omega) (by omega)
    omega
  · intro hids hnonpos hlt
    by_contra hpos
    have hc : _ ∈ keptConstraints keptInRow (silence before ++ row :: silence after) :=
      ⟨_, hmem, e, he, hids, by simpa [keptInRow] using hlt, by dsimp only; omega, rfl⟩
    rw [hconstraints, mem_rowConstraints h] at hc
    obtain ⟨p, hp, e', he', hone, -, heq⟩ := hc
    obtain rfl := eq_of_entriesOf hp he'
    simp only [Prod.mk.injEq] at heq
    omega

end OneRow

/-- The packed payload says what the payloads of the rows say, for the rows together, for every row
by itself and for windows of whole rows, exactly if the constrained targets that are kept have their
sources in their rows. -/
theorem packRow_correct_iff (h : Accepted vocabSize rows) :
    (PackedCorrectly (packRows rows) rows ∧ (∀ before row after, rows = before ++ row :: after →
        PackedCorrectly (packRows (silence before ++ row :: silence after))
          (silence before ++ row :: silence after)) ∧
      PackedCorrectly (packWholeRows rows) rows) ↔ SourcesInRows rows := by
  constructor
  · rintro ⟨hpacked, hsingle, -⟩
    have hrow : ∀ p ∈ offsetRows 0 rows, ∀ e ∈ entriesOf p.2.1,
        (1 ≤ e.position → e.position ≤ p.2.2 → e.ids ≠ []) ∧
        (e.ids ≠ [] → e.position = p.2.2 → p.2.2 = 0) ∧
        (e.ids ≠ [] → e.position ≤ 0 → e.position < p.2.2 → e.position + p.1 ≤ 0) := by
      intro p hp
      obtain ⟨before, after, hrows, hoffset⟩ := mem_offsetRows.mp hp
      rw [hoffset, zero_add]
      exact row_of_packedCorrectly (h.sublist hrows) (hsingle before p.2 after hrows)
    obtain ⟨hdistinct, -⟩ := (packRows_correctly_iff h).mp hpacked
    refine ⟨fun p hp e he => (hrow p hp e he).1, fun p hp e he => (hrow p hp e he).2.1,
      fun p hp e he => (hrow p hp e he).2.2, ?_⟩
    apply hdistinct.imp
    intro p q hpq e he e' he' hids hids' _ hlt _ hlt'
    exact hpq e he e' he' hids hids' (by simpa [keptInRow] using hlt) (by simpa [keptInRow] using hlt')
  · intro hrows
    refine ⟨packRows_correctly h hrows, ?_, packWholeRows_correctly h hrows.nonempty⟩
    intro before row after heq
    exact packRows_correctly (h.sublist heq) (hrows.single heq)

end Pack

/-- A payload with one constraint: at `position` only `token` is allowed. -/
def oneToken (seqLen position token : Int) : ActionMasks :=
  ⟨seqLen, 8, [position], [0], [true], [0, 1], [token]⟩

/-- Three rows, of which two are constrained inside. -/
theorem packRow_correct_iff_threeRows :
    let rows : List Row := [(some (oneToken 3 1 5), 3), (none, 2), (some (oneToken 2 1 6), 2)]
    Accepted 8 rows ∧ SourcesInRows rows ∧ PackedCorrectly (packRows rows) rows := by
  intro rows
  have haccepted : Accepted 8 rows := by
    refine ⟨?_, ?_, ?_⟩
    · simp only [rows, forall_mem_cons, not_mem_nil]
      exact ⟨⟨_, rfl⟩, ⟨_, rfl⟩, ⟨_, rfl⟩, by simp⟩
    · simp only [rows, forall_mem_cons, not_mem_nil]
      exact ⟨⟨_, rfl⟩, ⟨_, rfl⟩, ⟨_, rfl⟩, by simp⟩
    · simp [rows, oneToken]
  have hsources : SourcesInRows rows := ⟨by decide, by decide, by decide, by decide⟩
  exact ⟨haccepted, hsources, ((packRow_correct_iff haccepted).mpr hsources).1⟩

/-- Two rows of length two.  The first constrains the target behind its last source, the second its
first token: the constraint of the second is packed at the source where that of the first belongs. -/
theorem packRow_crosses_rows :
    let rows : List Row := [(some (oneToken 3 2 5), 2), (some (oneToken 2 0 6), 2)]
    Accepted 8 rows ∧ (∃ m lm, packRows rows = .ok m ∧ actionMasksToLmHead m = .ok lm ∧
      constraints lm = [(1, true, {6})]) ∧ ¬ PackedCorrectly (packRows rows) rows := by
  intro rows
  have haccepted : Accepted 8 rows := by
    refine ⟨?_, ?_, ?_⟩
    · simp only [rows, forall_mem_cons, not_mem_nil]
      exact ⟨⟨_, rfl⟩, ⟨_, rfl⟩, by simp⟩
    · simp only [rows, forall_mem_cons, not_mem_nil]
      exact ⟨⟨_, rfl⟩, ⟨_, rfl⟩, by simp⟩
    · simp [rows, oneToken]
  refine ⟨haccepted, ⟨_, _, rfl, rfl, by decide⟩, ?_⟩
  intro hpacked
  obtain ⟨-, hconstraints⟩ := (packRows_correctly_iff haccepted).mp hpacked
  have hc : (1, true, {5}) ∈ rowConstraints rows :=
    (mem_rowConstraints haccepted _).mpr ⟨(0, some (oneToken 3 2 5), 2), by decide,
      ⟨2, true, [5]⟩, by decide, by decide, by decide, by decide⟩
  rw [← hconstraints] at hc
  revert hc
  simp only [keptConstraints, Set.mem_ofPred_eq]
  decide

end ArcticPlatform.LmHeadMasks
