import ArcticPlatform.Packing.Model

/-!
# Packing: walking a batch

A transformation of the leaves of a batch reaches every leaf where it stands, also in
the dictionaries inside the batch.

Main results:

- Theorem `mapBatchValues_isOk`: a walk whose every leaf can be transformed
  succeeds.
- Theorem `leafAt_map`: the leaf at a path after a walk.
- Theorem `batchTensor_map`: the tensor that is looked up for a key after a walk.
-/

namespace ArcticPlatform.Packing

open Results Tensors List

variable {α ω : Type} {transform : String → Leaf α ω → Except Error (Option (Leaf α ω))}
  {P : String → Leaf α ω → Prop}

mutual

/-- A property of all leaves of a value. -/
def Value.AllLeaves (P : String → Leaf α ω → Prop) (key : String) : Value α ω → Prop
  | .leaf x => P key x
  | .dict entries => allLeaves P entries

/-- A property of all leaves of a batch, with the keys they have in their dictionaries. -/
def allLeaves (P : String → Leaf α ω → Prop) : List (String × Value α ω) → Prop
  | [] => True
  | (key, value) :: batch => value.AllLeaves P key ∧ allLeaves P batch

end

/-- A leaf by the keys that lead to it. -/
def leafAt : List String → Batch α ω → Option (Leaf α ω)
  | [], _ => none
  | [key], batch =>
    match batch.lookup key with
    | some (.leaf x) => some x
    | _ => none
  | key :: path, batch =>
    match batch.lookup key with
    | some (.dict entries) => leafAt path entries
    | _ => none

theorem leafAt_cons (k : String) (path : List String) (key : String) (batch : Batch α ω) :
    leafAt (k :: path ++ [key]) batch = match batch.lookup k with
      | some (.dict entries) => leafAt (path ++ [key]) entries
      | _ => none := by
  cases path with
  | nil => rfl
  | cons _ _ => rfl

/-! ## The walk -/

mutual

theorem mapBatchValue_isOk
    (h : ∀ key x, P key x → ∃ r, transform key x = .ok r) (key : String) (v : Value α ω)
    (hv : v.AllLeaves P key) : ∃ r, mapBatchValue transform key v = .ok r := by
  cases v with
  | leaf x =>
    obtain ⟨r, hr⟩ := h key x hv
    exact ⟨_, by rw [mapBatchValue, hr, bind_ok]⟩
  | dict entries =>
    obtain ⟨r, hr⟩ := mapBatchValues_isOk h entries hv
    exact ⟨_, by rw [mapBatchValue, hr, bind_ok]⟩

/-- A walk succeeds if every leaf can be transformed. -/
theorem mapBatchValues_isOk
    (h : ∀ key x, P key x → ∃ r, transform key x = .ok r) (batch : List (String × Value α ω))
    (hbatch : allLeaves P batch) : ∃ r, mapBatchValues transform batch = .ok r := by
  cases batch with
  | nil => exact ⟨[], rfl⟩
  | cons entry batch =>
    obtain ⟨key, v⟩ := entry
    obtain ⟨r, hr⟩ := mapBatchValue_isOk h key v hbatch.1
    obtain ⟨result, hresult⟩ := mapBatchValues_isOk h batch hbatch.2
    exact ⟨_, by rw [mapBatchValues, hr, bind_ok, hresult, bind_ok]⟩

end

mutual

theorem allLeaves_mapValue
    (h : ∀ key x x', transform key x = .ok (some x') → P key x') (key : String) (v v' : Value α ω)
    (hv' : mapBatchValue transform key v = .ok (some v')) : v'.AllLeaves P key := by
  cases v with
  | leaf x =>
    rw [mapBatchValue] at hv'
    obtain ⟨r, hr, hv'⟩ := bind_eq_ok.mp hv'
    cases r with
    | none => cases hv'
    | some x' =>
      cases hv'
      exact h key x x' hr
  | dict entries =>
    rw [mapBatchValue] at hv'
    obtain ⟨result, hresult, hv'⟩ := bind_eq_ok.mp hv'
    cases hv'
    exact allLeaves_map h entries result hresult

/-- What is true of every leaf that a transformation gives is true of all leaves after the walk. -/
theorem allLeaves_map
    (h : ∀ key x x', transform key x = .ok (some x') → P key x')
    (batch result : List (String × Value α ω))
    (hresult : mapBatchValues transform batch = .ok result) : allLeaves P result := by
  cases batch with
  | nil =>
    cases hresult
    exact trivial
  | cons entry batch =>
    obtain ⟨key, v⟩ := entry
    rw [mapBatchValues] at hresult
    obtain ⟨r, hr, hresult⟩ := bind_eq_ok.mp hresult
    obtain ⟨tail, htail, hresult⟩ := bind_eq_ok.mp hresult
    cases hresult
    have hall := allLeaves_map h batch tail htail
    cases r with
    | none => exact hall
    | some v' => exact ⟨allLeaves_mapValue h key v v' hr, hall⟩

end

mutual

theorem allLeaves_true_value (h : ∀ key x, P key x) (key : String)
    (v : Value α ω) : v.AllLeaves P key := by
  cases v with
  | leaf x => exact h key x
  | dict entries => exact allLeaves_true h entries

theorem allLeaves_true (h : ∀ key x, P key x)
    (batch : List (String × Value α ω)) : allLeaves P batch := by
  cases batch with
  | nil => exact trivial
  | cons entry batch =>
    obtain ⟨key, v⟩ := entry
    exact ⟨allLeaves_true_value h key v, allLeaves_true h batch⟩

end

variable {batch result : Batch α ω}

theorem lookup_map (key : String) (hresult : mapBatchValues transform batch = .ok result) :
    match batch.lookup key with
    | none => result.lookup key = none
    | some v => ∃ r, mapBatchValue transform key v = .ok r ∧
        ∀ v', r = some v' → result.lookup key = some v' := by
  induction batch generalizing result with
  | nil =>
    cases hresult
    rfl
  | cons entry batch ih =>
    obtain ⟨key', w⟩ := entry
    rw [mapBatchValues] at hresult
    obtain ⟨r, hr, hresult⟩ := bind_eq_ok.mp hresult
    obtain ⟨tail, htail, hresult⟩ := bind_eq_ok.mp hresult
    cases hresult
    rw [lookup_cons]
    cases hkey : key == key' with
    | true =>
      rw [beq_iff_eq.mp hkey]
      refine ⟨r, hr, ?_⟩
      rintro v' rfl
      simp
    | false =>
      have hlookup : ((r.map (Prod.mk key')).toList ++ tail).lookup key = tail.lookup key := by
        cases r with
        | none => rfl
        | some w' =>
          rw [Option.map_some, Option.toList_some, singleton_append, lookup_cons, hkey]
      rw [hlookup]
      exact ih htail

variable {key : String}

theorem lookup_dict {entries : Batch α ω} (hresult : mapBatchValues transform batch = .ok result)
    (hentries : batch.lookup key = some (.dict entries)) :
    ∃ entries', mapBatchValues transform entries = .ok entries' ∧
      result.lookup key = some (.dict entries') := by
  have hlookup := lookup_map key hresult
  rw [hentries] at hlookup
  obtain ⟨r, hr, hlookup⟩ := hlookup
  rw [mapBatchValue] at hr
  obtain ⟨entries', hentries', hr⟩ := bind_eq_ok.mp hr
  cases hr
  exact ⟨entries', hentries', hlookup _ rfl⟩

/-- The leaf at a path after a walk. -/
theorem leafAt_map {path : List String} {x x' : Leaf α ω}
    (hresult : mapBatchValues transform batch = .ok result)
    (hx : leafAt (path ++ [key]) batch = some x) (hx' : transform key x = .ok (some x')) :
    leafAt (path ++ [key]) result = some x' := by
  induction path generalizing batch result with
  | nil =>
    rw [nil_append, leafAt] at hx ⊢
    split at hx
    · rename_i y hy
      cases hx
      have hlookup := lookup_map key hresult
      rw [hy] at hlookup
      obtain ⟨r, hr, hlookup⟩ := hlookup
      rw [mapBatchValue, hx', bind_ok] at hr
      cases hr
      rw [hlookup _ rfl]
    · cases hx
  | cons k path ih =>
    rw [leafAt_cons] at hx ⊢
    split at hx
    · rename_i entries hentries
      obtain ⟨entries', hentries', hlookup⟩ := lookup_dict hresult hentries
      rw [hlookup]
      exact ih hentries' hx
    · cases hx

/-! ## Looking up tensors -/

/-- A transformation of tensors that keeps the number of axes, and of nothing else. -/
structure KeepsAxes (transform : String → Leaf α ω → Except Error (Option (Leaf α ω))) : Prop where
  tensor : ∀ key t r, transform key (.tensor t) = .ok r →
    ∃ t' : Tensor α, r = some (.tensor t') ∧ t'.ndim = t.ndim
  other : ∀ key x r, transform key (.other x) = .ok r → ∃ x', r = some (.other x')

theorem lookup_leaf (h : KeepsAxes transform) {x : Leaf α ω}
    (hresult : mapBatchValues transform batch = .ok result)
    (hx : batch.lookup key = some (.leaf x)) :
    ∃ x', transform key x = .ok (some x') ∧ result.lookup key = some (.leaf x') := by
  have hlookup := lookup_map key hresult
  rw [hx] at hlookup
  obtain ⟨r, hr, hlookup⟩ := hlookup
  rw [mapBatchValue] at hr
  obtain ⟨r', hr', hr⟩ := bind_eq_ok.mp hr
  cases hr
  cases x with
  | tensor t =>
    obtain ⟨t', rfl, -⟩ := h.tensor key t r' hr'
    exact ⟨_, hr', hlookup _ rfl⟩
  | other x =>
    obtain ⟨x', rfl⟩ := h.other key x r' hr'
    exact ⟨_, hr', hlookup _ rfl⟩

theorem tensorOf_map (h : KeepsAxes transform) (key : String) (minDims : Nat)
    (hresult : mapBatchValues transform batch = .ok result) :
    match tensorOf minDims (batch.lookup key) with
    | none => tensorOf minDims (result.lookup key) = none
    | some t => ∃ t', transform key (.tensor t) = .ok (some (.tensor t')) ∧
        tensorOf minDims (result.lookup key) = some t' := by
  cases hlookup : batch.lookup key with
  | none =>
    have := lookup_map key hresult
    rw [hlookup] at this
    rw [this]
    rfl
  | some v =>
    cases v with
    | dict entries =>
      obtain ⟨entries', -, hlookup'⟩ := lookup_dict hresult hlookup
      rw [hlookup']
      rfl
    | leaf x =>
      obtain ⟨x', hx', hlookup'⟩ := lookup_leaf h hresult hlookup
      rw [hlookup']
      cases x with
      | other x =>
        obtain ⟨y, hy⟩ := h.other key x _ hx'
        cases hy
        rfl
      | tensor t =>
        obtain ⟨t', ht', hndim⟩ := h.tensor key t _ hx'
        cases ht'
        simp only [tensorOf, hndim]
        by_cases hmin : minDims ≤ t.ndim
        · rw [if_pos hmin, if_pos hmin]
          exact ⟨t', hx', rfl⟩
        · rw [if_neg hmin, if_neg hmin]

theorem findSome?_map {minDims : Nat} {cs cs' : List (Option (Value α ω))}
    (h : Forall₂ (fun c c' => match tensorOf minDims c with
      | none => tensorOf minDims c' = none
      | some t => ∃ t', transform key (.tensor t) = .ok (some (.tensor t')) ∧
          tensorOf minDims c' = some t') cs cs') {t : Tensor α}
    (ht : cs.findSome? (tensorOf minDims) = some t) :
    ∃ t', transform key (.tensor t) = .ok (some (.tensor t')) ∧
      cs'.findSome? (tensorOf minDims) = some t' := by
  induction h with
  | nil => cases ht
  | @cons c c' cs cs' hc _ ih =>
    rw [findSome?_cons] at ht ⊢
    cases hc' : tensorOf minDims c with
    | none =>
      rw [hc'] at hc ht
      rw [hc]
      exact ih ht
    | some u =>
      rw [hc'] at hc ht
      cases ht
      obtain ⟨t', htransform, ht'⟩ := hc
      rw [ht']
      exact ⟨t', htransform, rfl⟩

/-- The tensor that is looked up for a key after a walk. -/
theorem batchTensor_map (h : KeepsAxes transform) {minDims : Nat} {t : Tensor α}
    (hresult : mapBatchValues transform batch = .ok result)
    (ht : batchTensor batch key minDims = some t) :
    ∃ t', transform key (.tensor t) = .ok (some (.tensor t')) ∧
      batchTensor result key minDims = some t' := by
  have hkey := tensorOf_map h key minDims hresult
  have hone := findSome?_map (.cons hkey .nil) (t := t)
  have hcontext := lookup_map "context" hresult
  unfold batchTensor at ht ⊢
  cases hlookup : batch.lookup "context" with
  | none =>
    rw [hlookup] at ht hcontext
    rw [hcontext]
    exact hone ht
  | some v =>
    cases v with
    | leaf x =>
      rw [hlookup] at ht
      obtain ⟨x', -, hlookup'⟩ := lookup_leaf h hresult hlookup
      rw [hlookup']
      exact hone ht
    | dict context =>
      rw [hlookup] at ht
      obtain ⟨context', hcontext', hlookup'⟩ := lookup_dict hresult hlookup
      rw [hlookup']
      exact findSome?_map (.cons hkey (.cons (tensorOf_map h key minDims hcontext') .nil)) ht

end ArcticPlatform.Packing
