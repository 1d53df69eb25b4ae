import ArcticPlatform.Library.StringFamily

/-!
# Path-compressed tries as sets of vertex strings

A path-compressed trie is determined by the set of strings spelled by its
vertices: `v` hangs below `w` along the token `a` when `v`
is a shortest vertex that extends `w ++ [a]`.  The lemmas below say how this
child relation changes when one vertex is added one token below another, when a
vertex is dropped, and when a vertex moves one token down.

Main results:

- Theorems `cover_insert_iff`, `cover_erase_iff` and
  `cover_rename_iff`: the child relation after the three elementary changes.
- Theorem `Family.cover_vertex_iff`: in the trie of a family of strings the
  children are the branching points of equal count.
-/

namespace CompressedTrie

open StringFamily List

variable {α : Type*} {V V' : List α → Prop} {w v x y p : List α} {a b c : α}

/-- `v` is a shortest vertex below `w` along the token `a`. -/
structure Cover (V : List α → Prop) (w : List α) (a : α) (v : List α) : Prop where
  left : V w
  right : V v
  le : w ++ [a] <+: v
  min : ∀ u, V u → w ++ [a] <+: u → u <+: v → u = v

theorem prefix_antisymm (h : w <+: v) (h' : v <+: w) : w = v :=
  h.eq_of_length (le_antisymm h.length_le h'.length_le)

namespace Cover

section

variable (h : Cover V w a v)
include h

theorem isPrefix : w <+: v := (prefix_append w [a]).trans h.le

theorem length_lt : w.length < v.length := by
  have := h.le.length_le
  simpa using this

theorem ne : w ≠ v := by
  intro heq
  have := h.length_lt
  simp [heq] at this

theorem ne_nil : v ≠ [] := by
  intro heq
  have := h.length_lt
  simp [heq] at this

theorem unique_parent (h' : Cover V p b v) : w = p ∧ a = b := by
  have key : ∀ {w p : List α} {a b : α}, Cover V w a v → Cover V p b v → ¬ w.length < p.length := by
    intro w p a b h h' hlt
    have hle : w ++ [a] <+: p := prefix_of_prefix_length_le h.le h'.isPrefix (by simpa using hlt)
    exact h'.ne (h.min p h'.left hle h'.isPrefix)
  have hlen : w.length = p.length := by
    have h1 := key h h'
    have h2 := key h' h
    omega
  have hwp : w = p := (prefix_of_prefix_length_le h.isPrefix h'.isPrefix hlen.le).eq_of_length hlen
  subst hwp
  have heq : w ++ [a] = w ++ [b] :=
    (prefix_of_prefix_length_le h.le h'.le (by simp)).eq_of_length (by simp)
  exact ⟨rfl, by simpa using heq⟩

theorem eq_of_vertex (hV : V (w ++ [a])) : v = w ++ [a] := (h.min _ hV (prefix_refl _) h.le).symm

end

end Cover

theorem exists_concat_prefix (h : w <+: v) (hne : w ≠ v) : ∃ d, w ++ [d] <+: v := by
  obtain ⟨t, rfl⟩ := h
  cases t with
  | nil => simp at hne
  | cons d t => exact ⟨d, t, by simp⟩

/-- Every vertex other than the empty string hangs below some vertex. -/
theorem exists_cover (hroot : V []) (hv : V v) (hne : v ≠ []) : ∃ w a, Cover V w a v := by
  -- Search downwards for the longest proper prefix that is a vertex.
  have key : ∀ n, n < v.length → (∀ m, n < m → m < v.length → ¬ V (v.take m)) →
      ∃ w a, Cover V w a v := by
    intro n
    induction n with
    | zero =>
      intro hn hmax
      obtain ⟨d, hd⟩ := exists_concat_prefix (List.nil_prefix (l := v)) (Ne.symm hne)
      refine ⟨[], d, hroot, hv, hd, fun u hu hdu huv => ?_⟩
      by_contra hneq
      have hlt : u.length < v.length :=
        lt_of_le_of_ne huv.length_le fun h => hneq (huv.eq_of_length h)
      have hpos : 0 < u.length := by
        have := hdu.length_le
        simp only [nil_append, length_cons, length_nil] at this
        omega
      exact hmax u.length hpos hlt (by rwa [← prefix_iff_eq_take.mp huv])
    | succ n ih =>
      intro hn hmax
      by_cases hvert : V (v.take (n + 1))
      · have hpre : v.take (n + 1) <+: v := take_prefix _ _
        have hlen : (v.take (n + 1)).length = n + 1 := by
          rw [length_take]
          omega
        obtain ⟨d, hd⟩ := exists_concat_prefix hpre (by
          intro h
          rw [h] at hlen
          omega)
        refine ⟨v.take (n + 1), d, hvert, hv, hd, fun u hu hdu huv => ?_⟩
        by_contra hneq
        have hlt : u.length < v.length :=
          lt_of_le_of_ne huv.length_le fun h => hneq (huv.eq_of_length h)
        have hgt : n + 1 < u.length := by
          have := hdu.length_le
          simp only [length_append, hlen, length_cons, length_nil] at this
          omega
        exact hmax u.length hgt hlt (by rwa [← prefix_iff_eq_take.mp huv])
      · refine ih (by omega) fun m hm hmv => ?_
        rcases Nat.eq_or_lt_of_le hm with rfl | hlt
        · exact hvert
        · exact hmax m hlt hmv
  have hpos : 0 < v.length := length_pos_iff.mpr hne
  exact key (v.length - 1) (by omega) (fun m hm hmv => by omega)

theorem prefix_or_concat_prefix {u : List α} (hu : u <+: v) (hx : x ++ [a] <+: v) :
    u <+: x ∨ x ++ [a] <+: u := by
  by_cases hlen : u.length ≤ x.length
  · exact .inl (prefix_of_prefix_length_le hu ((prefix_append x [a]).trans hx) hlen)
  · refine .inr (prefix_of_prefix_length_le hx hu ?_)
    simp only [length_append, length_cons, length_nil]
    omega

/-- Children after adding the vertex `x ++ [a]` one token below the vertex `x`. -/
theorem cover_insert_iff (hV : ∀ u, V' u ↔ V u ∨ u = x ++ [a]) (hx : V x) (hnew : ¬ V (x ++ [a])) :
    Cover V' w b v ↔ (v = x ++ [a] ∧ w = x ∧ b = a) ∨
        (w = x ++ [a] ∧ Cover V x a v ∧ x ++ [a] ++ [b] <+: v) ∨
        (Cover V w b v ∧ ¬ (w = x ∧ b = a)) := by
  constructor
  · intro h
    rcases (hV v).mp h.right with hv | hv
    · rcases (hV w).mp h.left with hw | hw
      · refine .inr (.inr ⟨⟨hw, hv, h.le, fun u hu => h.min u ((hV u).mpr (.inl hu))⟩, ?_⟩)
        rintro ⟨rfl, rfl⟩
        have := h.min _ ((hV _).mpr (.inr rfl)) (prefix_refl _) h.le
        exact hnew (this ▸ hv)
      · subst hw
        refine .inr (.inl ⟨rfl, ⟨hx, hv, h.isPrefix, fun u hu hau huv => ?_⟩, h.le⟩)
        -- `u` is an old vertex, so it is longer than the new one.
        have hne : x ++ [a] ≠ u := fun heq => hnew (heq ▸ hu)
        rcases prefix_or_concat_prefix huv h.le with hle | hle
        · exact absurd (prefix_antisymm hau hle) hne
        · exact h.min u ((hV u).mpr (.inl hu)) hle huv
    · subst hv
      rcases (hV w).mp h.left with hw | hw
      · have hwx : w ++ [b] <+: x ∨ w = x ∧ b = a := by
          rcases prefix_concat_iff.mp h.le with heq | hle
          · exact .inr ⟨append_inj_left' heq rfl, by simpa using append_inj_right' heq rfl⟩
          · exact .inl hle
        rcases hwx with hle | heq
        · have heq := h.min x ((hV x).mpr (.inl hx)) hle (prefix_append x [a])
          exact absurd hx (heq ▸ hnew)
        · exact .inl ⟨rfl, heq⟩
      · exact absurd hw h.ne
  · rintro (⟨rfl, rfl, rfl⟩ | ⟨rfl, h, hle⟩ | ⟨h, hne⟩)
    · refine ⟨(hV _).mpr (.inl hx), (hV _).mpr (.inr rfl), prefix_refl _, ?_⟩
      intro u _ hle hge
      exact prefix_antisymm hge hle
    · refine ⟨(hV _).mpr (.inr rfl), (hV _).mpr (.inl h.right), hle, fun u hu hbu huv => ?_⟩
      rcases (hV u).mp hu with hu | hu
      · exact h.min u hu ((prefix_append _ _).trans hbu) huv
      · subst hu
        have := hbu.length_le
        simp at this
    · refine ⟨(hV _).mpr (.inl h.left), (hV _).mpr (.inl h.right), h.le, fun u hu hbu huv => ?_⟩
      rcases (hV u).mp hu with hu | hu
      · exact h.min u hu hbu huv
      · -- The new vertex cannot lie on an old edge other than the one at `x`.
        subst hu
        rcases prefix_concat_iff.mp hbu with heq | hle
        · exact absurd ⟨append_inj_left' heq rfl, by simpa using append_inj_right' heq rfl⟩ hne
        · have hxv := h.min x hx hle ((prefix_append x [a]).trans huv)
          have := huv.length_le
          simp [hxv] at this

/-- Children after dropping the vertex `x`, which hangs below `p` along `c`. -/
theorem cover_erase_iff (hV : ∀ u, V' u ↔ V u ∧ u ≠ x) (hp : Cover V p c x) :
    Cover V' w b v ↔ (Cover V w b v ∧ w ≠ x ∧ v ≠ x) ∨ (w = p ∧ b = c ∧ ∃ d, Cover V x d v) := by
  constructor
  · intro h
    obtain ⟨hw, hwx⟩ := (hV w).mp h.left
    obtain ⟨hv, hvx⟩ := (hV v).mp h.right
    by_cases hbetween : w ++ [b] <+: x ∧ x <+: v
    · have hwxc : Cover V w b x := by
        refine ⟨hw, hp.right, hbetween.1, fun u hu hbu hux => ?_⟩
        by_contra hne
        have huv := h.min u ((hV u).mpr ⟨hu, hne⟩) hbu (hux.trans hbetween.2)
        exact hvx (prefix_antisymm (huv ▸ hux) hbetween.2)
      obtain ⟨rfl, rfl⟩ := hwxc.unique_parent hp
      obtain ⟨d, hd⟩ := exists_concat_prefix hbetween.2 (Ne.symm hvx)
      refine .inr ⟨rfl, rfl, d, hp.right, hv, hd, fun u hu hdu huv => ?_⟩
      have hne : u ≠ x := by
        rintro rfl
        have := hdu.length_le
        simp at this
      exact h.min u ((hV u).mpr ⟨hu, hne⟩)
        (hp.le.trans ((prefix_append x [d]).trans hdu)) huv
    · refine .inl ⟨⟨hw, hv, h.le, fun u hu hbu huv => ?_⟩, hwx, hvx⟩
      refine h.min u ((hV u).mpr ⟨hu, ?_⟩) hbu huv
      rintro rfl
      exact hbetween ⟨hbu, huv⟩
  · rintro (⟨h, hwx, hvx⟩ | ⟨rfl, rfl, d, h⟩)
    · exact ⟨(hV w).mpr ⟨h.left, hwx⟩, (hV v).mpr ⟨h.right, hvx⟩, h.le,
        fun u hu => h.min u ((hV u).mp hu).1⟩
    · refine ⟨(hV _).mpr ⟨hp.left, hp.ne⟩, (hV _).mpr ⟨h.right, h.ne.symm⟩,
        hp.le.trans h.isPrefix, fun u hu hbu huv => ?_⟩
      obtain ⟨hu, hux⟩ := (hV u).mp hu
      rcases prefix_or_concat_prefix huv h.le with hle | hle
      · exact absurd (hp.min u hu hbu hle) hux
      · exact h.min u hu hle huv

/-- Children after moving the vertex `x` one token down to `x ++ [a]`, where every child of
`x` lies along `a`. -/
theorem cover_rename_iff (hV : ∀ u, V' u ↔ (V u ∧ u ≠ x) ∨ u = x ++ [a])
    (hp : Cover V p c x) (hnew : ¬ V (x ++ [a])) (honly : ∀ d u, Cover V x d u → d = a) :
    Cover V' w b v ↔ (v = x ++ [a] ∧ Cover V w b x) ∨
        (w = x ++ [a] ∧ Cover V x a v ∧ x ++ [a] ++ [b] <+: v) ∨
        (Cover V w b v ∧ w ≠ x ∧ v ≠ x) := by
  -- First split the edge below `x`, then drop `x`.
  let V₁ : List α → Prop := fun u => V u ∨ u = x ++ [a]
  have hxne : x ++ [a] ≠ x := by simp
  have hins : ∀ {w v : List α} {b : α}, Cover V₁ w b v ↔ _ :=
    @fun w v b => cover_insert_iff (w := w) (v := v) (b := b) (fun _ => Iff.rfl)
      hp.right hnew
  have hV₁ : ∀ u, V' u ↔ V₁ u ∧ u ≠ x := by
    intro u
    rw [hV]
    constructor
    · rintro (⟨hu, hux⟩ | rfl)
      · exact ⟨.inl hu, hux⟩
      · exact ⟨.inr rfl, hxne⟩
    · rintro ⟨hu | hu, hux⟩
      · exact .inl ⟨hu, hux⟩
      · exact .inr hu
  have hp₁ : Cover V₁ p c x := hins.mpr (.inr (.inr ⟨hp, fun h => hp.ne h.1⟩))
  have hchild : ∀ d u, Cover V₁ x d u ↔ u = x ++ [a] ∧ d = a := by
    intro d u
    rw [hins]
    constructor
    · rintro (⟨hu, -, hd⟩ | ⟨hx, -⟩ | ⟨h, hne⟩)
      · exact ⟨hu, hd⟩
      · exact absurd hx hxne.symm
      · exact absurd ⟨rfl, honly d u h⟩ hne
    · rintro ⟨hu, hd⟩
      exact .inl ⟨hu, rfl, hd⟩
  rw [cover_erase_iff hV₁ hp₁, hins]
  constructor
  · rintro (⟨⟨-, hwx, -⟩ | h | ⟨h, -⟩, hne⟩ | ⟨rfl, rfl, d, hd⟩)
    · exact absurd hwx hne.1
    · exact .inr (.inl h)
    · exact .inr (.inr ⟨h, hne⟩)
    · exact .inl ⟨((hchild d v).mp hd).1, hp⟩
  · rintro (⟨rfl, h⟩ | ⟨rfl, h, hle⟩ | ⟨h, hwx, hvx⟩)
    · obtain ⟨rfl, rfl⟩ := h.unique_parent hp
      exact .inr ⟨rfl, rfl, a, (hchild _ _).mpr ⟨rfl, rfl⟩⟩
    · exact .inl ⟨.inr (.inl ⟨rfl, h, hle⟩), hxne, h.ne.symm⟩
    · exact .inl ⟨.inr (.inr ⟨h, fun hc => hwx hc.1⟩), hwx, hvx⟩

/-! ## The trie of a family of strings -/

section Family

variable {ι : Type*} [DecidableEq α] {F : Family ι α}

/-- Vertices of the count trie of a family: the root and the branching points. -/
def Vertex (F : Family ι α) (w : List α) : Prop :=
  w = [] ∨ F.IsNode w

/-- In the trie of a family the child along a token is the branching point of equal count. -/
theorem cover_vertex_iff :
    Cover (Vertex F) w a v ↔
      Vertex F w ∧ F.IsNode v ∧ w ++ [a] <+: v ∧ F.cnt v = F.cnt (w ++ [a]) := by
  constructor
  · intro h
    have hv : F.IsNode v := h.right.resolve_left h.ne_nil
    refine ⟨h.left, hv, h.le, ?_⟩
    have hpos : 0 < F.cnt (w ++ [a]) := lt_of_lt_of_le hv.1 (Family.cnt_anti h.le)
    obtain ⟨u, hu, hunode, hucnt⟩ := Family.exists_isNode_of_pos hpos
    -- Both `u` and `v` continue a string of the family that passes through `v`.
    obtain ⟨k, hk, hvk⟩ := Family.cnt_pos_iff.mp hv.1
    have huk := Family.prefix_of_cnt_eq hu hucnt.ge hk (h.le.trans hvk)
    rcases prefix_or_prefix_of_prefix huk hvk with huv | hvu
    · rw [← h.min u (.inr hunode) hu huv]
      exact hucnt
    · have h1 := F.cnt_anti hvu
      have h2 := F.cnt_anti h.le
      omega
  · rintro ⟨hw, hv, hle, hcnt⟩
    refine ⟨hw, .inr hv, hle, fun u hu hau huv => ?_⟩
    have hune : u ≠ [] := by
      rintro rfl
      have := hau.length_le
      simp at this
    have h1 := F.cnt_anti hau
    have h2 := F.cnt_anti huv
    exact (hu.resolve_left hune).eq_of_cnt_le huv (by omega)

/-- A token continues a string of the family exactly when the trie has a child along it. -/
theorem exists_cover_vertex_iff (hw : Vertex F w) :
    (∃ v, Cover (Vertex F) w a v) ↔ 0 < F.cnt (w ++ [a]) := by
  constructor
  · rintro ⟨v, h⟩
    obtain ⟨-, hv, -, hcnt⟩ := cover_vertex_iff.mp h
    exact hcnt ▸ hv.1
  · intro hpos
    obtain ⟨v, hle, hv, hcnt⟩ := Family.exists_isNode_of_pos hpos
    exact ⟨v, cover_vertex_iff.mpr ⟨hw, hv, hle, hcnt⟩⟩

theorem Cover.unique_child (h : Cover (Vertex F) w a v) (h' : Cover (Vertex F) w a x) : v = x := by
  obtain ⟨-, hv, hle, hcnt⟩ := cover_vertex_iff.mp h
  obtain ⟨-, hx, hle', hcnt'⟩ := cover_vertex_iff.mp h'
  exact Family.isNode_unique (hcnt ▸ hv.1) hle hle' hv hx hcnt hcnt'

section Updates

variable [DecidableEq ι] {k : ι}

/-- Appending a token keeps every vertex and adds the extended string, unless the old string
only has occurrences that continue the same way. -/
theorem vertex_extend_keep (hk : k ∈ F.keys) (a : α)
    (hkeep : F.str k = [] ∨ F.cnt (F.str k) ≠ F.cnt (F.str k ++ [a]) + 1) (u : List α) :
    Vertex (F.extend k a) u ↔ Vertex F u ∨ u = F.str k ++ [a] := by
  unfold Vertex
  rw [Family.isNode_extend_iff hk]
  constructor
  · rintro (hu | hu | ⟨hu, -⟩)
    · exact .inl (.inl hu)
    · exact .inr hu
    · exact .inl (.inr hu)
  · rintro ((hu | hu) | hu)
    · exact .inl hu
    · by_cases hux : u = F.str k
      · rcases hkeep with hnil | hne
        · exact .inl (hux.trans hnil)
        · exact .inr (.inr ⟨hu, fun hc => hne hc.2⟩)
      · exact .inr (.inr ⟨hu, fun hc => hux hc.1⟩)
    · exact .inr (.inl hu)

/-- Appending a token moves the vertex of the old string when its other occurrences all
continue the same way. -/
theorem vertex_extend_move (hk : k ∈ F.keys) (a : α) (hne : F.str k ≠ [])
    (hcnt : F.cnt (F.str k) = F.cnt (F.str k ++ [a]) + 1) (u : List α) :
    Vertex (F.extend k a) u ↔ (Vertex F u ∧ u ≠ F.str k) ∨ u = F.str k ++ [a] := by
  unfold Vertex
  rw [Family.isNode_extend_iff hk]
  constructor
  · rintro (rfl | hu | ⟨hu, hux⟩)
    · exact .inl ⟨.inl rfl, hne.symm⟩
    · exact .inr hu
    · exact .inl ⟨.inr hu, fun heq => hux ⟨heq, hcnt⟩⟩
  · rintro (⟨hu | hu, hux⟩ | hu)
    · exact .inl hu
    · exact .inr (.inr ⟨hu, fun hc => hux hc.1⟩)
    · exact .inr (.inl hu)

theorem vertex_open_iff (hk : k ∉ F.keys) (u : List α) : Vertex (F.open_ k) u ↔ Vertex F u := by
  unfold Vertex
  by_cases hu : u = []
  · simp [hu]
  · rw [Family.isNode_open_iff hk hu]

/-- The vertices that still occur after the key `k` is dropped. -/
def Remaining (F : Family ι α) (k : ι) (u : List α) : Prop :=
  Vertex F u ∧ (u = [] ∨ 0 < (F.erase k).cnt u)

theorem remaining_iff_of_lt (hk : k ∈ F.keys) (hcnt : 1 < F.cnt (F.str k)) (u : List α) :
    Remaining F k u ↔ Vertex F u := by
  refine ⟨And.left, fun hu => ⟨hu, ?_⟩⟩
  rcases hu with hu | hu
  · exact .inl hu
  · right
    have herase := Family.cnt_erase hk u
    have hpos := hu.1
    by_cases hpre : u <+: F.str k
    · have := F.cnt_anti hpre
      rw [if_pos hpre] at herase
      omega
    · rw [if_neg hpre] at herase
      omega

/-- Only the vertex of the dropped string goes when it occurs once. -/
theorem remaining_iff_of_one (hk : k ∈ F.keys) (hne : F.str k ≠ [])
    (hcnt : F.cnt (F.str k) = 1) (u : List α) :
    Remaining F k u ↔ Vertex F u ∧ u ≠ F.str k := by
  have herase := Family.cnt_erase hk u
  constructor
  · rintro ⟨hu, hpos⟩
    refine ⟨hu, ?_⟩
    rintro rfl
    rw [if_pos (prefix_refl _)] at herase
    rcases hpos with hnil | hpos
    · exact hne hnil
    · omega
  · rintro ⟨hu, hux⟩
    refine ⟨hu, ?_⟩
    rcases hu with hu | hu
    · exact .inl hu
    · right
      have hpos := hu.1
      by_cases hpre : u <+: F.str k
      · have hanti := F.cnt_anti hpre
        have hneq : F.cnt u ≠ 1 := fun h1 => hux (hu.eq_of_cnt_le hpre (by omega))
        rw [if_pos hpre] at herase
        omega
      · rw [if_neg hpre] at herase
        omega

/-- After the drop every remaining vertex stays one, except that the last one on the dropped
string goes when its remaining occurrences all continue the same way. -/
theorem vertex_erase_iff (hk : k ∈ F.keys) {y : List α} (hy : Remaining F k y)
    (hyk : y <+: F.str k) (hlongest : ∀ u, Remaining F k u → u <+: F.str k → u <+: y) (u : List α) :
    Vertex (F.erase k) u ↔ Remaining F k u ∧
      ¬ (u = y ∧ y ≠ [] ∧ ∃ b, (F.erase k).cnt (y ++ [b]) = (F.erase k).cnt y) := by
  constructor
  · rintro (rfl | hu)
    · refine ⟨⟨.inl rfl, .inl rfl⟩, ?_⟩
      rintro ⟨rfl, hne, -⟩
      exact hne rfl
    · obtain ⟨hnode, hpos, hlast⟩ := (Family.isNode_erase_iff hk u).mp hu
      refine ⟨⟨.inr hnode, .inr hpos⟩, ?_⟩
      rintro ⟨rfl, -, hb⟩
      exact hlast hb
  · rintro ⟨hu, hnot⟩
    by_cases hnil : u = []
    · exact .inl hnil
    right
    have hnode := hu.1.resolve_left hnil
    have hpos := hu.2.resolve_left hnil
    by_cases hpre : u <+: F.str k
    · by_cases huy : u = y
      · subst huy
        exact (Family.isNode_erase_iff hk u).mpr ⟨hnode, hpos, fun hb => hnot ⟨rfl, hnil, hb⟩⟩
      · have hle := hlongest u hu hpre
        have hyne : y ≠ [] := by
          rintro rfl
          exact huy (prefix_nil.mp hle)
        exact hnode.erase_of_prefix hk hle huy hyk (hy.2.resolve_left hyne)
    · exact hnode.erase_of_not_prefix hk hpre

theorem cnt_erase_cover (hk : k ∈ F.keys) (h : Cover (Vertex F) w a v) :
    (F.erase k).cnt v = (F.erase k).cnt (w ++ [a]) := by
  obtain ⟨-, -, hle, hcnt⟩ := cover_vertex_iff.mp h
  have hv := Family.cnt_erase hk v
  have hw := Family.cnt_erase hk (w ++ [a])
  by_cases hpre : w ++ [a] <+: F.str k
  · rw [if_pos hpre] at hw
    rw [if_pos (Family.prefix_of_cnt_eq hle hcnt.ge hk hpre)] at hv
    omega
  · rw [if_neg hpre] at hw
    rw [if_neg fun hc => hpre (hle.trans hc)] at hv
    omega

end Updates

end Family

end CompressedTrie
