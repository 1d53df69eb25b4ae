import ArcticPlatform.WeightLoading.Fp8Updates

/-!
# Views into parameters

An embedding of `_DirectParamWriter` and `_load_direct`.  A view is all of a parameter or a
window of its output dimension.  The source keeps the destinations in a second table with the same keys;
here a view names its parameter.

Main results:

- Theorem `ownView_of_getView`: where the view of a name comes from.
- Theorem `shards_tile`: the shards of a fused parameter cover it, each row once.
- Theorem `sync_accounted_iff`: what both paths do with a stream.
-/

namespace ArcticPlatform.WeightLoading

open Dicts WeightSync List

/-! ## Views -/

inductive View where
  | whole (param : Name)
  | narrow (param : Name) (dim offset size : Nat)

/-- The projections that are fused in a module, with the positions of their shards. -/
def originals (modPath : Name) (l : Linear) : List (Name × Nat) :=
  match l.kind with
  | .qkv => [("q_proj".toList, 0), ("k_proj".toList, 1), ("v_proj".toList, 2)]
  | .mergedColumn =>
    if (rpartition modPath).2 = "gate_up_proj".toList then
      [("gate_proj".toList, 0), ("up_proj".toList, 1)]
    else []
  | _ => []

/-- The name under which a shard is received. -/
def shardKey (modPath orig : Name) : Name :=
  let pre := (rpartition modPath).1
  (if pre = [] then orig else pre ++ '.' :: orig) ++ ".weight".toList

/-- Offset and size of a shard. -/
def window (l : Linear) (shardIdx : Nat) : Nat × Nat :=
  ((l.outputSizes.take shardIdx).sum / l.tpSize, l.outputSizes.getD shardIdx 0 / l.tpSize)

/-- The view of a shard.  `narrow` raises when the window is not inside the parameter. -/
def shardView (modPath : Name) (l : Linear) (weight : Param) (shardIdx : Nat) : Except Error View :=
  if shardIdx < l.outputSizes.length then do
    let dim := weight.outputDim.getD 0
    let (offset, size) := window l shardIdx
    call (offset + size ≤ weight.shape.getD dim 0)
    return .narrow (Model.weightName modPath) dim offset size
  else .error .index

/-- The entries of the views for the shards of the modules, in order. -/
def shardViews (m : Model) : Except Error (List (Name × View)) := do
  let entries ← m.modules.mapM fun (modPath, mod) =>
    match mod, m.param? (Model.weightName modPath) with
    | .linear l, some weight =>
      (originals modPath l).mapM fun (orig, shardIdx) => do
        return (shardKey modPath orig, ← shardView modPath l weight shardIdx)
    | _, _ => .ok []
  return entries.flatten

local instance : LawfulBEq Name := inferInstance

/-- Later entries replace earlier ones. -/
def update (views : Dict Name View) (entries : List (Name × View)) : Dict Name View :=
  entries.foldl (fun d e => d.set e.1 e.2) views

/-- The shards, and the parameters whose names are not those of shards. -/
def baseViews (m : Model) : Except Error (Dict Name View) := do
  let views := update .empty (← shardViews m)
  return update views ((m.params.filter fun e => e.1 ∉ views.keys).map fun e => (e.1, .whole e.1))

/-- A view under a further name, for the names that have no view of their own. -/
def addAliases (rename : Name → Name) (views : Dict Name View) : Dict Name View :=
  update views <| views.entries.filterMap fun e =>
    if rename e.1 ≠ e.1 ∧ rename e.1 ∉ views.keys then some (rename e.1, e.2) else none

def stripRoutedExpertsModule (sfKey : Name) : Name :=
  replace sfKey ".experts.routed_experts.".toList ".experts.".toList

def stripCheckpointWrapper (sfKey : Name) : Name := replace sfKey "._checkpoint_wrapped_module".toList []

/-- The insertion of `_add_checkpoint_wrapper_alias` behind the first numbered layer, on the parts of
a name. -/
def wrapLayer : List Name → Option (List Name)
  | a :: b :: c :: rest =>
    if a = "layers".toList ∧ b ≠ [] ∧ b.all Char.isDigit ∧ c ≠ "_checkpoint_wrapped_module".toList then
      some (a :: b :: "_checkpoint_wrapped_module".toList :: c :: rest)
    else (wrapLayer (b :: c :: rest)).map (a :: ·)
  | _ => none

/-- `_add_checkpoint_wrapper_alias`. -/
def addCheckpointWrapperAlias (sfKey : Name) : Name :=
  ((wrapLayer (sfKey.splitOn '.')).map (['.'].intercalate ·)).getD sfKey

/-- The views of `_DirectParamWriter`. -/
def writerViews (m : Model) : Except Error (Dict Name View) := do
  return addAliases addCheckpointWrapperAlias (addAliases stripRoutedExpertsModule (← baseViews m))

/-- `get_view`, and with it `get_destination`. -/
def getView (views : Dict Name View) (sfKey : Name) : Option View :=
  (views.get? sfKey).or (views.get? (stripCheckpointWrapper sfKey))

/-! ## The direct path -/

/-- What `_load_direct` raises: a call, or the names without a view. -/
inductive DirectError where
  | cause (error : Error)
  | orphans (names : List Name)
  deriving DecidableEq

def View.shape (m : Model) : View → List Nat
  | .whole param => ((m.param? param).map Param.shape).getD []
  | .narrow param dim _ size => (((m.param? param).map Param.shape).getD []).set dim size

/-- The loop of `_load_direct`: the tensors that were copied, and the orphans. -/
def copyAll (m : Model) (ops : Ops) (views : Dict Name View) :
    List (Nat × Name × Tensor) → Except Error (List (Nat × View) × List Name)
  | [] => .ok ([], [])
  | (i, name, tensor) :: rest =>
    match getView views name with
    | some view => do
      call (ops.copy (view.shape m) tensor.shape)
      let (copied, orphans) ← copyAll m ops views rest
      return ((i, view) :: copied, orphans)
    | none => do
      let (copied, orphans) ← copyAll m ops views rest
      return (copied, name :: orphans)

/-- `_load_direct`: the views that the received tensors were copied into. -/
def loadDirect (m : Model) (ops : Ops) (stream : List (Name × Tensor)) :
    Except DirectError (List (Nat × View)) :=
  match writerViews m >>= fun views => copyAll m ops views (numbered stream) with
  | .ok (copied, []) => .ok copied
  | .ok (_, orphans) => .error (.orphans orphans)
  | .error error => .error (.cause error)

/-! ## Where a view comes from -/

section Views

variable {m : Model} {ops : Ops} {views : Dict Name View} {name : Name} {view : View}

/-- The views that belong to a name: the shard of a fused parameter, or the parameter of the name. -/
inductive Own (m : Model) : Name → View → Prop
  | shard {modPath : Name} {l : Linear} {weight : Param} {orig : Name} {shardIdx : Nat} {view : View}
      (hmod : (modPath, Module.linear l) ∈ m.modules)
      (hweight : m.param? (Model.weightName modPath) = some weight)
      (horig : (orig, shardIdx) ∈ originals modPath l)
      (hview : shardView modPath l weight shardIdx = .ok view) : Own m (shardKey modPath orig) view
  | param {name : Name} (hparam : (m.param? name).isSome) : Own m name (.whole name)

/-- The name spells a key without the module of the routed experts, or with or without the wrapper of
activation checkpoints. -/
def Spells (name key : Name) : Prop :=
  ∃ inner outer, (inner = key ∨ inner = stripRoutedExpertsModule key) ∧
    (outer = inner ∨ outer = addCheckpointWrapperAlias inner) ∧
      (outer = name ∨ outer = stripCheckpointWrapper name)

/-- The view belongs to the name, or to a key that the name spells and has no view of its own for. -/
def OwnView (m : Model) (name : Name) (view : View) : Prop :=
  ∃ base key, baseViews m = .ok base ∧ base.get? key = some view ∧ Own m key view ∧
    (key = name ∨ base.get? name = none ∧ Spells name key)

variable {entries : List (Name × View)}

theorem get?_update (h : (update views entries).get? name = some view) :
    views.get? name = some view ∨ (name, view) ∈ entries := by
  induction entries generalizing views with
  | nil => exact .inl h
  | cons e entries ih =>
    rcases ih h with hset | hmem
    · rw [Dict.get?_set] at hset
      split_ifs at hset with hname
      · cases hset
        rw [hname]
        exact .inr mem_cons_self
      · exact .inl hset
    · exact .inr (mem_cons_of_mem _ hmem)

theorem get?_update_of_notMem (h : name ∉ entries.map Prod.fst) :
    (update views entries).get? name = views.get? name := by
  induction entries generalizing views with
  | nil => rfl
  | cons e entries ih =>
    rw [map_cons, mem_cons, not_or] at h
    exact (ih h.2).trans (by rw [Dict.get?_set, if_neg h.1])

theorem get?_addAliases {rename : Name → Name} (h : (addAliases rename views).get? name = some view) :
    views.get? name = some view ∨
      views.get? name = none ∧ ∃ key, views.get? key = some view ∧ name = rename key := by
  rcases get?_update h with h | h
  · exact .inl h
  · obtain ⟨e, hmem, he⟩ := mem_filterMap.mp h
    split_ifs at he with hfree
    cases he
    exact .inr ⟨(Dict.get?_eq_none _).mpr hfree.2, e.1, (Dict.get?_eq_some _).mpr hmem, rfl⟩

theorem get?_of_get?_addAliases {rename : Name → Name} (h : (addAliases rename views).get? name = none) :
    views.get? name = none := by
  by_contra hname
  rw [addAliases, get?_update_of_notMem] at h
  · exact hname h
  · rintro hmem
    obtain ⟨entry, hentry, rfl⟩ := mem_map.mp hmem
    obtain ⟨e, -, he⟩ := mem_filterMap.mp hentry
    split_ifs at he with hfree
    cases he
    exact hname ((Dict.get?_eq_none _).mpr hfree.2)

theorem own_of_mem_shardViews (h : shardViews m = .ok entries) (hmem : (name, view) ∈ entries) :
    Own m name view := by
  obtain ⟨groups, hgroups, h⟩ := Results.bind_eq_ok.mp h
  cases Except.ok.inj h
  obtain ⟨group, hgroup, hmem⟩ := mem_flatten.mp hmem
  obtain ⟨⟨modPath, mod⟩, hmod, hentries⟩ := (Results.mem_of_mapM hgroups).2 _ hgroup
  dsimp only at hentries
  split at hentries
  · rename_i l weight hweight
    obtain ⟨⟨orig, shardIdx⟩, horig, hentry⟩ := (Results.mem_of_mapM hentries).2 _ hmem
    obtain ⟨view', hview, heq⟩ := Results.bind_eq_ok.mp hentry
    cases Except.ok.inj heq
    exact Own.shard hmod hweight horig hview
  · cases hentries
    cases hmem

theorem own_of_baseViews (h : baseViews m = .ok views) (hname : views.get? name = some view) :
    Own m name view := by
  obtain ⟨entries, hentries, h⟩ := Results.bind_eq_ok.mp h
  cases Except.ok.inj h
  rcases get?_update hname with hname | hname
  · rcases get?_update hname with hname | hname
    · cases hname
    · exact own_of_mem_shardViews hentries hname
  · obtain ⟨e, hmem, heq⟩ := mem_map.mp hname
    cases heq
    refine Own.param ?_
    rw [Option.isSome_iff_ne_none, Model.param?, Ne, lookup_eq_none, not_not]
    exact mem_map_of_mem (mem_filter.mp hmem).1

theorem exists_key {base : Dict Name View} {outer : Name}
    (h : (addAliases addCheckpointWrapperAlias (addAliases stripRoutedExpertsModule base)).get? outer =
      some view) :
    ∃ key inner, base.get? key = some view ∧ (inner = key ∨ inner = stripRoutedExpertsModule key) ∧
      (outer = inner ∨ outer = addCheckpointWrapperAlias inner) ∧
        (key = outer ∨ base.get? outer = none) := by
  rcases get?_addAliases h with hfirst | ⟨hfree, inner, hfirst, rfl⟩
  · rcases get?_addAliases hfirst with hbase | ⟨hnone, key, hbase, rfl⟩
    · exact ⟨outer, outer, hbase, .inl rfl, .inl rfl, .inl rfl⟩
    · exact ⟨key, _, hbase, .inr rfl, .inl rfl, .inr hnone⟩
  · have hnone := get?_of_get?_addAliases hfree
    rcases get?_addAliases hfirst with hbase | ⟨-, key, hbase, rfl⟩
    · exact ⟨inner, inner, hbase, .inl rfl, .inr rfl, .inr hnone⟩
    · exact ⟨key, _, hbase, .inr rfl, .inr rfl, .inr hnone⟩

/-- What `get_view` finds is a view of the name's own parameter. -/
theorem ownView_of_getView (hviews : writerViews m = .ok views) (h : getView views name = some view) :
    OwnView m name view := by
  obtain ⟨base, hbase, heq⟩ := Results.bind_eq_ok.mp hviews
  cases Except.ok.inj heq
  rcases Option.or_eq_some_iff.mp h with h | ⟨hnone, h⟩
  · obtain ⟨key, inner, hkey, hinner, houter, hname⟩ := exists_key h
    exact ⟨base, key, hbase, hkey, own_of_baseViews hbase hkey,
      hname.imp_right fun hfree => ⟨hfree, inner, name, hinner, houter, .inl rfl⟩⟩
  · obtain ⟨key, inner, hkey, hinner, houter, -⟩ := exists_key h
    exact ⟨base, key, hbase, hkey, own_of_baseViews hbase hkey, Or.inr
      ⟨get?_of_get?_addAliases (get?_of_get?_addAliases hnone), inner, _, hinner, houter, .inr rfl⟩⟩

/-- Without orphans every tensor has been copied into the view of its name. -/
theorem copyAll_spec {items : List (Nat × Name × Tensor)} {copied : List (Nat × View)}
    {orphans : List Name} (h : copyAll m ops views items = .ok (copied, orphans)) (hnone : orphans = []) :
    ∀ x ∈ items, ∃ view, getView views x.2.1 = some view ∧ (x.1, view) ∈ copied := by
  induction items generalizing copied orphans with
  | nil => exact fun x hx => absurd hx not_mem_nil
  | cons y rest ih =>
    rw [copyAll] at h
    split at h
    · rename_i view hview
      obtain ⟨⟨copied', orphans'⟩, hrest, heq⟩ := Results.bind_eq_ok.mp (bind_call h)
      cases Except.ok.inj heq
      intro x hx
      rcases mem_cons.mp hx with rfl | hx
      · exact ⟨view, hview, mem_cons_self⟩
      · obtain ⟨view', hview', hmem⟩ := ih hrest hnone x hx
        exact ⟨view', hview', mem_cons_of_mem _ hmem⟩
    · obtain ⟨⟨copied', orphans'⟩, hrest, heq⟩ := Results.bind_eq_ok.mp h
      cases Except.ok.inj heq
      cases hnone

theorem loadDirect_copies {stream : List (Name × Tensor)} {copied : List (Nat × View)}
    (h : loadDirect m ops stream = .ok copied) {i : Nat} {x : Name × Tensor} (hx : stream[i]? = some x) :
    ∃ view, (i, view) ∈ copied ∧ OwnView m x.1 view := by
  rw [loadDirect] at h
  split at h
  · rename_i copied' hloop
    cases Except.ok.inj h
    obtain ⟨views, hviews, hcopy⟩ := Results.bind_eq_ok.mp hloop
    obtain ⟨view, hview, hmem⟩ := copyAll_spec hcopy rfl (i, x) (mem_numbered.mpr hx)
    exact ⟨view, hmem, ownView_of_getView hviews hview⟩
  · cases h
  · cases h

/-! ## Shards of a fused parameter -/

/-- Every row of the fused parameter is in the window of exactly one shard. -/
def Tiles (modPath : Name) (l : Linear) : Prop :=
  ∀ row < l.outputSizes.sum, ∃! entry, entry ∈ originals modPath l ∧
    (window l entry.2).1 ≤ row ∧ row < (window l entry.2).1 + (window l entry.2).2

theorem originals_numbers (modPath : Name) (l : Linear) :
    (originals modPath l).map Prod.snd = List.range (originals modPath l).length := by
  unfold originals
  split
  · rfl
  · split_ifs
    · rfl
    · rfl
  · rfl

/-- On one device the shards of a fused parameter tile it, when it has a size for each of them. -/
theorem shards_tile {modPath : Name} {l : Linear} (htp : l.tpSize = 1)
    (hlength : l.outputSizes.length = (originals modPath l).length) : Tiles modPath l := by
  intro row hrow
  obtain ⟨c, ⟨hc, hle, hlt⟩, hunique⟩ := Slices.existsUnique_block hrow
  have hnumber : ∀ i (hi : i < (originals modPath l).length), (originals modPath l)[i].2 = i := by
    intro i hi
    have hget : ((originals modPath l).map Prod.snd)[i]? = some i := by
      rw [originals_numbers, getElem?_range hi]
    rw [getElem?_map, getElem?_eq_getElem hi] at hget
    exact Option.some.inj hget
  have hwindow : ∀ i < l.outputSizes.length, (window l i).1 = (l.outputSizes.take i).sum ∧
      (window l i).1 + (window l i).2 = (l.outputSizes.take (i + 1)).sum := by
    intro i hi
    have hget : l.outputSizes[i]? = some (l.outputSizes.getD i 0) := by
      rw [getD_eq_getElem?_getD, getElem?_eq_getElem hi]
      rfl
    rw [window, htp, Nat.div_one, Nat.div_one, Slices.sum_take_succ hget]
    exact ⟨rfl, rfl⟩
  have hc' : c < (originals modPath l).length := hlength ▸ hc
  refine ⟨(originals modPath l)[c], ⟨getElem_mem hc', ?_⟩, ?_⟩
  · rw [hnumber c hc', (hwindow c hc).2, (hwindow c hc).1]
    exact ⟨hle, hlt⟩
  · rintro entry ⟨hmem, hentry⟩
    obtain ⟨i, hi, rfl⟩ := getElem_of_mem hmem
    rw [hnumber i hi, (hwindow i (hlength ▸ hi)).2, (hwindow i (hlength ▸ hi)).1] at hentry
    have hic := hunique i ⟨hlength ▸ hi, hentry⟩
    subst hic
    rfl

end Views

/-! ## Both paths -/

/-- A sync that does not raise: over FP8 it has written everything exactly if the stream is accounted
for, directly it has copied every tensor into its own view, and the shards of a fused parameter tile it. -/
theorem sync_accounted_iff (m : Model) (ops : Ops) (stream : List (Name × Tensor)) :
    (∀ u n, loadFp8 m ops stream = .ok (u, n) → (Complete m stream u ↔ Accounted m stream)) ∧
    (∀ copied, loadDirect m ops stream = .ok copied → ∀ (i : Nat) x, stream[i]? = some x →
      ∃ view, (i, view) ∈ copied ∧ OwnView m x.1 view) ∧
    ∀ modPath l, (modPath, Module.linear l) ∈ m.modules → l.tpSize = 1 →
      l.outputSizes.length = (originals modPath l).length → Tiles modPath l :=
  ⟨fun _ _ => loadFp8_complete_iff, fun _ h _ _ => loadDirect_copies h, fun _ _ _ => shards_tile⟩

/-! ## An attention block -/

/-- The fused projection of an attention block, on one device. -/
def qkvProj : Linear := ⟨.qkv, [2, 1, 1], [2, 1, 1], 0, 1, true⟩

/-- The block has its projection in FP8, with a bias. -/
def attention : Model where
  modules := [("a.qkv_proj".toList, .linear qkvProj)]
  params := [("a.qkv_proj.weight".toList, ⟨[8, 4], .float8_e4m3fn, false, some 1, true⟩),
    ("a.qkv_proj.bias".toList, ⟨[4], .bfloat16, false, some 0, true⟩)]

def accepting : Ops := ⟨fun _ _ => true, fun _ _ _ _ => true, fun _ => true, fun _ _ => true⟩

/-- The weights of the three projections. -/
def weights : List (Name × Tensor) :=
  [("a.q_proj.weight".toList, ⟨[2, 8], .bfloat16⟩), ("a.k_proj.weight".toList, ⟨[1, 8], .bfloat16⟩),
    ("a.v_proj.weight".toList, ⟨[1, 8], .bfloat16⟩)]

/-- The weights, and the bias of one of them. -/
def weightsAndBias : List (Name × Tensor) := weights ++ [("a.q_proj.bias".toList, ⟨[2], .bfloat16⟩)]

theorem feeds_weights (p : Name) : feeds attention p (numbered weights) =
    if "a.qkv_proj".toList = p then [⟨0, some .q⟩, ⟨1, some .k⟩, ⟨2, some .v⟩] else [] := by
  by_cases hp : "a.qkv_proj".toList = p
  · subst hp
    rfl
  · rw [if_neg hp, feeds, filterMap_eq_nil_iff]
    intro x hx
    rcases mem_cons.mp hx with rfl | hx
    · exact if_neg hp
    · rcases mem_pair.mp hx with rfl | rfl
      · exact if_neg hp
      · exact if_neg hp

theorem accounted_weights : Accounted attention weights where
  known := by
    intro x hx hdropped
    rcases mem_cons.mp hx with rfl | hx
    · cases hdropped
    · rcases mem_pair.mp hx with rfl | rfl
      · cases hdropped
      · cases hdropped
  whole p := by
    rw [feeds_weights]
    split_ifs with hp
    · subst hp
      exact ⟨1, rfl⟩
    · exact dvd_zero _
  shards p hne := by
    rw [feeds_weights] at hne ⊢
    split_ifs at hne ⊢ with hp
    · subst hp
      unfold Covers
      decide
    · exact absurd rfl hne

theorem sync_accounted_weights :
    (∃ u n, loadFp8 attention accepting weights = .ok (u, n) ∧ Complete attention weights u) ∧
    (∃ copied view, loadDirect attention accepting weights = .ok copied ∧ (0, view) ∈ copied ∧
      OwnView attention "a.q_proj.weight".toList view) ∧ Tiles "a.qkv_proj".toList qkvProj := by
  obtain ⟨hfp8, hdirect, htiles⟩ := sync_accounted_iff attention accepting weights
  refine ⟨⟨_, _, rfl, (hfp8 _ _ rfl).mpr accounted_weights⟩, ?_,
    htiles _ _ (mem_singleton_self _) rfl rfl⟩
  obtain ⟨view, hmem, hown⟩ := hdirect _ rfl 0 _ rfl
  exact ⟨_, view, rfl, hmem, hown⟩

theorem bias_dropped : ∃ u, loadFp8 attention accepting weightsAndBias = .ok (u, 0) ∧
    ¬ Complete attention weightsAndBias u := by
  refine ⟨_, rfl, fun hcomplete => ?_⟩
  obtain ⟨name, -, hwritten⟩ := hcomplete.written 3 (by decide)
  have hindices : ∀ e ∈ [((0 : Nat), "a.qkv_proj.weight".toList), (1, "a.qkv_proj.weight".toList),
      (2, "a.qkv_proj.weight".toList)], e.1 ≠ 3 := by decide
  exact hindices _ hwritten rfl

end ArcticPlatform.WeightLoading
