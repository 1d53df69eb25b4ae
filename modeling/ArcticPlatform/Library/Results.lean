import Mathlib.Data.List.Forall2
import Mathlib.Data.List.Induction

/-!
# Computations that may fail

Taking apart a sequence of computations in `Except` by its outcome, and loops of
such computations.
-/

namespace Results

open List

universe u v

variable {ε : Type u} {α β : Type v}

variable {f : α → Except ε β}

theorem bind_ok {x : α} : (Except.ok x >>= f) = f x := rfl

theorem bind_error {e : ε} : ((Except.error e : Except ε α) >>= f) = .error e := rfl

/-- A guard that raises. -/
theorem of_ite_error {c : Prop} [Decidable c] {e : ε} {x : Except ε α} {a : α}
    (h : (if c then .error e else x) = .ok a) : ¬c ∧ x = .ok a := by
  by_cases hc : c
  · rw [if_pos hc] at h
    cases h
  · rw [if_neg hc] at h
    exact ⟨hc, h⟩

theorem bind_eq_ok {x : Except ε α} {r : β} : (x >>= f) = .ok r ↔ ∃ a, x = .ok a ∧ f a = .ok r := by
  cases x with
  | error e =>
    rw [bind_error]
    constructor
    · intro h
      exact absurd h (by simp)
    · rintro ⟨a, h, -⟩
      exact absurd h (by simp)
  | ok a =>
    rw [bind_ok]
    constructor
    · exact fun h => ⟨a, rfl, h⟩
    · rintro ⟨a', h, hr⟩
      rw [Except.ok.inj h]
      exact hr

variable {ι : Type*} {f : ι → Except ε α} {l : List ι}

/-- A sequence of computations succeeds if all of them do. -/
theorem mapM_eq_ok {ys : List α} :
    l.mapM f = .ok ys ↔ Forall₂ (fun x y => f x = .ok y) l ys := by
  induction l generalizing ys with
  | nil =>
    rw [mapM_nil, forall₂_nil_left_iff]
    constructor
    · intro h
      cases h
      rfl
    · rintro rfl
      rfl
  | cons x l ih =>
    rw [mapM_cons, bind_eq_ok]
    constructor
    · rintro ⟨y, hy, h⟩
      obtain ⟨zs, hzs, h⟩ := bind_eq_ok.mp h
      cases h
      exact Forall₂.cons hy (ih.mp hzs)
    · intro h
      cases h with
      | cons hy htail => exact ⟨_, hy, bind_eq_ok.mpr ⟨_, ih.mpr htail, rfl⟩⟩

theorem mapM_ok {g : ι → α} (h : ∀ x ∈ l, f x = .ok (g x)) :
    l.mapM f = .ok (l.map g) := by
  rw [mapM_eq_ok, forall₂_map_right_iff, forall₂_same]
  exact h

theorem mapM_isOk (h : ∀ x ∈ l, ∃ y, f x = .ok y) :
    ∃ ys, l.mapM f = .ok ys := by
  induction l with
  | nil => exact ⟨[], rfl⟩
  | cons x l ih =>
    obtain ⟨y, hy⟩ := h x mem_cons_self
    obtain ⟨ys, hys⟩ := ih fun x' hx' => h x' (mem_cons_of_mem _ hx')
    refine ⟨y :: ys, ?_⟩
    rw [mapM_cons, hy, bind_ok, hys, bind_ok]
    rfl

theorem isOk_of_mapM {ys : List α} (h : l.mapM f = .ok ys) {x : ι}
    (hx : x ∈ l) : ∃ y, f x = .ok y := by
  induction l generalizing ys with
  | nil => cases hx
  | cons x' l ih =>
    rw [mapM_cons] at h
    obtain ⟨y, hy, h⟩ := bind_eq_ok.mp h
    obtain ⟨ys', hys', -⟩ := bind_eq_ok.mp h
    rcases mem_cons.mp hx with rfl | hx
    · exact ⟨y, hy⟩
    · exact ih hys' hx

theorem mem_of_mapM {ys : List α} (h : l.mapM f = .ok ys) :
    (∀ x ∈ l, ∃ y ∈ ys, f x = .ok y) ∧ ∀ y ∈ ys, ∃ x ∈ l, f x = .ok y := by
  have hall := mapM_eq_ok.mp h
  induction hall with
  | nil => simp
  | @cons x y l ys hy htail ih =>
    obtain ⟨hleft, hright⟩ := ih (mapM_eq_ok.mpr htail)
    constructor
    · intro x' hx'
      rcases mem_cons.mp hx' with rfl | hx'
      · exact ⟨y, mem_cons_self, hy⟩
      · obtain ⟨y', hy', hf⟩ := hleft x' hx'
        exact ⟨y', mem_cons_of_mem _ hy', hf⟩
    · intro y' hy'
      rcases mem_cons.mp hy' with rfl | hy'
      · exact ⟨x, mem_cons_self, hy⟩
      · obtain ⟨x', hx', hf⟩ := hright y' hy'
        exact ⟨x', mem_cons_of_mem _ hx', hf⟩

/-! ## Optional results -/

variable {f : ι → Option β}

theorem mapM_eq_some_map {g : ι → β}
    (h : ∀ x ∈ l, f x = some (g x)) : l.mapM f = some (l.map g) := by
  induction l with
  | nil => rfl
  | cons x l ih =>
    rw [mapM_cons, h x mem_cons_self, ih fun y hy => h y (mem_cons_of_mem x hy)]
    rfl

variable {ys : List β}

theorem forall₂_of_mapM_eq_some (h : l.mapM f = some ys) :
    Forall₂ (fun x y => f x = some y) l ys := by
  induction l generalizing ys with
  | nil =>
    cases h
    exact Forall₂.nil
  | cons x l ih =>
    rw [mapM_cons] at h
    obtain ⟨y, hy, h⟩ := Option.bind_eq_some_iff.mp h
    obtain ⟨zs, hzs, h⟩ := Option.bind_eq_some_iff.mp h
    cases h
    exact Forall₂.cons hy (ih hzs)

theorem exists_of_mapM_eq_some (h : l.mapM f = some ys) {x : ι}
    (hx : x ∈ l) : ∃ y ∈ ys, f x = some y := by
  induction l generalizing ys with
  | nil => simp at hx
  | cons a l ih =>
    rw [mapM_cons] at h
    obtain ⟨y, hy, h⟩ := Option.bind_eq_some_iff.mp h
    obtain ⟨zs, hzs, h⟩ := Option.bind_eq_some_iff.mp h
    cases h
    rcases mem_cons.mp hx with rfl | hx
    · exact ⟨y, mem_cons_self, hy⟩
    · obtain ⟨z, hz, hfz⟩ := ih hzs hx
      exact ⟨z, mem_cons_of_mem _ hz, hfz⟩

theorem map_of_mapM_eq_some {ι γ : Type*} {f : ι → Option β} (g : ι → γ) (read : β → γ) {l : List ι}
    (h : l.mapM f = some ys) (hread : ∀ x ∈ l, ∀ y, f x = some y → read y = g x) :
    ys.map read = l.map g := by
  induction l generalizing ys with
  | nil =>
    cases h
    rfl
  | cons x l ih =>
    rw [mapM_cons] at h
    obtain ⟨y, hy, h⟩ := Option.bind_eq_some_iff.mp h
    obtain ⟨zs, hzs, h⟩ := Option.bind_eq_some_iff.mp h
    cases h
    rw [map_cons, map_cons, hread x mem_cons_self y hy,
      ih hzs fun x hx => hread x (mem_cons_of_mem _ hx)]

theorem forall_mapM_iff {P : β → Prop} {Q : ι → Prop}
    (h : l.mapM f = some ys) (hiff : ∀ x ∈ l, ∀ y, f x = some y → (P y ↔ Q x)) :
    (∀ y ∈ ys, P y) ↔ ∀ x ∈ l, Q x := by
  have hmap := map_of_mapM_eq_some Q P h fun x hx y hy => propext (hiff x hx y hy)
  have hall := congrArg (fun props : List Prop => ∀ p ∈ props, p) hmap
  simpa only [forall_mem_map, eq_iff_iff] using hall

theorem mapM_range_getElem? {f : Nat → Option β} {l : List β} {n : Nat} (hlength : l.length = n)
    (h : ∀ i < n, f i = l[i]?) : (range n).mapM f = some l := by
  subst hlength
  induction l using reverseRecOn with
  | nil => rfl
  | append_singleton l x ih =>
    have hinit : ∀ i < l.length, f i = l[i]? := by
      intro i hi
      rw [h i (by simp; omega), getElem?_append_left hi]
    have hlast : f l.length = some x := by
      rw [h l.length (by simp), getElem?_concat_length]
    rw [length_append, length_singleton, range_succ, mapM_append, ih hinit]
    simp [hlast]

/-! ## Loops -/

section Loops

variable {σ : Type v} {ι κ : Type*}

/-- What holds before a loop and is kept by every turn that succeeds holds at the end of the loop,
of the items it has gone through. -/
theorem foldlM_invariant {f : σ → ι → Except ε σ} {P : List ι → σ → Prop} {s : σ} (hinit : P [] s)
    (hstep : ∀ done x s s', P done s → f s x = .ok s' → P (done ++ [x]) s') {l : List ι} {r : σ}
    (h : l.foldlM f s = .ok r) : P l r := by
  induction l using reverseRecOn generalizing r with
  | nil =>
    cases h
    exact hinit
  | append_singleton l x ih =>
    rw [foldlM_append] at h
    obtain ⟨s', hs', hx⟩ := bind_eq_ok.mp h
    rw [foldlM_cons] at hx
    obtain ⟨s'', hs'', hr⟩ := bind_eq_ok.mp hx
    cases hr
    exact hstep l x s' r (ih hs') hs''

theorem foldlM_isOk {f : σ → ι → Except ε σ} {P : List ι → σ → Prop} {s : σ} (hinit : P [] s)
    {l : List ι} (hstep : ∀ done x s, done ++ [x] <+: l → P done s →
      ∃ s', f s x = .ok s' ∧ P (done ++ [x]) s') :
    ∃ r, l.foldlM f s = .ok r ∧ P l r := by
  induction l using reverseRecOn with
  | nil => exact ⟨s, rfl, hinit⟩
  | append_singleton l x ih =>
    obtain ⟨s', hs', hP⟩ := ih fun done y t hdone ht =>
      hstep done y t (hdone.trans (prefix_append _ _)) ht
    obtain ⟨r, hr, hPr⟩ := hstep l x s' prefix_rfl hP
    refine ⟨r, ?_, hPr⟩
    rw [foldlM_append, hs', bind_ok, foldlM_cons, hr, bind_ok]
    rfl

theorem foldlM_nested (g : ι → List κ) (f : ι → σ → κ → Except ε σ) (l : List ι) (s : σ) :
    l.foldlM (fun s m => (g m).foldlM (f m) s) s =
      (l.flatMap fun m => (g m).map (Prod.mk m)).foldlM (fun s p => f p.1 s p.2) s := by
  induction l generalizing s with
  | nil => rfl
  | cons m l ih =>
    rw [foldlM_cons, flatMap_cons, foldlM_append, foldlM_map]
    congr 1
    funext s'
    exact ih s'

end Loops

end Results
