import ArcticPlatform.Library.TensorIndices
import ArcticPlatform.Library.Dict

/-!
# Expert LoRA layouts

The LoRA factors of the experts of a layer are flat matrices on every expert-parallel
rank: factor A has the experts one below the other, factor B has the expert index
fastest.  A checkpoint stores the factors of all experts in these layouts; the sampler is
sent one matrix for every expert.

Main results:

- Theorem `peftAdapterRank_name`: both exports read the same adapter rank.
- Theorems `gathered_A` and `gathered_B`: what both exports give to an expert.
- Theorem `expertLora_layouts_agree`: the exports agree.
-/

namespace ArcticPlatform.WeightExport

open Tensors Results List

/-! ## The layouts -/

/-- What an export raises. -/
inductive Error where
  | value (message : String)
  | runtime (message : String)
  | torch (error : TensorError)
  | zeroDivision
  deriving DecidableEq

/-- The factors of an adapter. -/
inductive Kind where
  | A
  | B
  deriving DecidableEq

/-- The name of a factor's module. -/
def Kind.part : Kind → String
  | .A => "lora_A"
  | .B => "lora_B"

section

variable {α : Type} [Inhabited α]

/-- An error of a tensor operation is one of the export. -/
def lift {β : Type} : Except TensorError β → Except Error β
  | .ok x => .ok x
  | .error e => .error (.torch e)

/-- `t.view(*lead, -1)`: the last size is inferred, which takes leading sizes that are not zero. -/
def viewRest (t : Tensor α) (lead : List Nat) : Except Error (Tensor α) :=
  if lead.prod = 0 then .error (.torch .shapeMismatch)
  else lift (t.reshape (lead ++ [t.data.length / lead.prod]))

/-- A shape, as Python shows a tuple. -/
def showTuple (shape : List Nat) : String :=
  match shape with
  | [n] => s!"({n},)"
  | shape => "(" ++ ", ".intercalate (shape.map toString) ++ ")"

/-- `_reshape_expert_lora_for_ep`: one matrix for every expert. -/
def reshapeExpertLoraForEp (t : Tensor α) (kind : Kind) (rank : Nat) (label : String) :
    Except Error (Tensor α) :=
  if t.ndim ≠ 2 then
    .error (.value s!"expected expert LoRA to be 2-D flat, got {showTuple t.shape} ({label})")
  else if rank = 0 then .error .zeroDivision
  else
    let dim0 := t.shape.getD 0 0
    let dim1 := t.shape.getD 1 0
    match kind with
    | .A =>
      if dim0 % rank ≠ 0 then
        .error (.value s!"lora_A dim0={dim0} not divisible by r={rank} ({label})")
      else lift (t.reshape [dim0 / rank, rank, dim1])
    | .B =>
      if dim1 % rank ≠ 0 then
        .error (.value s!"lora_B dim1={dim1} not divisible by r={rank} ({label})")
      else do
        let view ← lift (t.reshape [dim0, rank, dim1 / rank])
        return view.permute [2, 0, 1]

/-- `_gather_ep_expert_lora`, out of the shards of all ranks. -/
def gatherEpExpertLora (shards : List (Tensor α)) (kind : Kind) (rank : Nat) : Except Error (Tensor α) :=
  match kind with
  | .A => lift (Tensor.cat shards 0)
  | .B => do
    let views ← shards.mapM fun shard => viewRest shard [shard.shape.getD 0 0, rank]
    let joined ← lift (Tensor.cat views 2)
    -- `flatten(1)`
    lift (joined.reshape [joined.shape.getD 0 0, (joined.shape.drop 1).prod])

/-! ## The exports -/

/-- The adapters of a model and their ranks: `peft_config[adapter_name].r`. -/
abbrev PeftConfig := List (String × Option Int)

/-- The rank of a configuration, when it is positive. -/
def positiveRank : Option Int → Option Nat
  | some r => if 0 < r then some r.toNat else none
  | none => none

/-- The rank of the adapter that a parameter's name names. -/
def namedRank (config : PeftConfig) : List String → Option Nat
  | part :: adapter :: rest =>
    if part = "lora_A" ∨ part = "lora_B" then
      match (Dicts.lookup adapter config).bind positiveRank with
      | some rank => some rank
      | none => namedRank config (adapter :: rest)
    else namedRank config (adapter :: rest)
  | _ => none

/-- `_peft_adapter_rank`, for the parts of a parameter's name. -/
def peftAdapterRank (config : PeftConfig) (parts : List String) : Except Error Nat :=
  let message := "LoRA export requires model.peft_config[*].r for " ++ ".".intercalate parts
  match namedRank config parts with
  | some rank => .ok rank
  | none =>
    match config with
    | [(_, rank)] =>
      match positiveRank rank with
      | some rank => .ok rank
      | none => .error (.runtime message)
    | _ => .error (.runtime message)

/-- The factor that `gather_peft_adapter_state_dict` stores for the expert-parallel shards of a
parameter. -/
def checkpointFactor (config : PeftConfig) (parts : List String) (shards : List (Tensor α)) :
    Except Error (Tensor α) := do
  let kind := if "lora_B" ∈ parts then Kind.B else Kind.A
  let rank ← peftAdapterRank config parts
  gatherEpExpertLora shards kind rank

/-- The matrices that `iter_lora_weights` sends for the expert-parallel shards of a factor. -/
def samplerFactor (config : PeftConfig) (kind : Kind) (adapter label : String) (shards : List (Tensor α)) :
    Except Error (Tensor α) := do
  let rank ← peftAdapterRank config [kind.part, adapter, "weight"]
  let locals ← shards.mapM fun shard => reshapeExpertLoraForEp shard kind rank label
  lift (Tensor.cat locals 0)

/-! ## The rank of an adapter -/

theorem namedRank_append (config : PeftConfig) {path : List String} (hA : "lora_A" ∉ path)
    (hB : "lora_B" ∉ path) (part adapter : String) (rest : List String) :
    namedRank config (path ++ part :: adapter :: rest) = namedRank config (part :: adapter :: rest) := by
  induction path with
  | nil => rfl
  | cons p path ih =>
    have hp : ¬ (p = "lora_A" ∨ p = "lora_B") := by
      rintro (rfl | rfl)
      · exact hA mem_cons_self
      · exact hB mem_cons_self
    have hrest := ih (fun h => hA (mem_cons_of_mem _ h)) fun h => hB (mem_cons_of_mem _ h)
    rw [← hrest]
    cases path with
    | nil => rw [singleton_append, namedRank, if_neg hp, nil_append]
    | cons q path => rw [cons_append, cons_append, namedRank, if_neg hp]

/-- The checkpoint and the sampler read the same rank for a factor. -/
theorem peftAdapterRank_name {config : PeftConfig} {path : List String} (hA : "lora_A" ∉ path)
    (hB : "lora_B" ∉ path) (kind : Kind) {adapter : String} {r : Nat}
    (hr : (Dicts.lookup adapter config).bind positiveRank = some r) :
    peftAdapterRank config (path ++ [kind.part, adapter, "weight"]) = .ok r ∧
      peftAdapterRank config [kind.part, adapter, "weight"] = .ok r := by
  have hpart : kind.part = "lora_A" ∨ kind.part = "lora_B" := by
    cases kind
    · exact .inl rfl
    · exact .inr rfl
  have hnamed : namedRank config [kind.part, adapter, "weight"] = some r := by
    rw [namedRank, if_pos hpart, hr]
  constructor
  · simp only [peftAdapterRank, namedRank_append config hA hB, hnamed]
  · simp only [peftAdapterRank, hnamed]

/-! ## Views of a matrix -/

variable {t : Tensor α}

theorem reshape_rows {a b c : Nat} (ht : t.shape = [a * b, c]) :
    t.reshape [a, b, c] = .ok (Tensor.build [a, b, c] fun index =>
      t.entry [index.getD 0 0 * b + index.getD 1 0, index.getD 2 0]) := by
  rw [Tensor.reshape_ok (by rw [ht]; simp [mul_assoc])]
  congr 1
  apply Tensor.build_congr
  intro index hindex
  obtain ⟨i, _, j, _, k, _, rfl⟩ := inBounds_three.mp hindex
  rw [Tensor.entry, ht]
  congr 1
  simp [offset, add_mul, mul_assoc, add_assoc]

theorem reshape_columns {a b c : Nat} (ht : t.shape = [a, b * c]) :
    t.reshape [a, b, c] = .ok (Tensor.build [a, b, c] fun index =>
      t.entry [index.getD 0 0, index.getD 1 0 * c + index.getD 2 0]) := by
  rw [Tensor.reshape_ok (by rw [ht]; simp)]
  congr 1
  apply Tensor.build_congr
  intro index hindex
  obtain ⟨i, _, j, _, k, _, rfl⟩ := inBounds_three.mp hindex
  rw [Tensor.entry, ht]
  congr 1
  simp [offset]

variable (label : String)

theorem reshapeExpertLoraForEp_A {e r c : Nat} (hr : 0 < r) (ht : t.shape = [e * r, c]) :
    reshapeExpertLoraForEp t .A r label = .ok (Tensor.build [e, r, c] fun index =>
      t.entry [index.getD 0 0 * r + index.getD 1 0, index.getD 2 0]) := by
  have hndim : ¬ t.ndim ≠ 2 := not_not.mpr (congrArg List.length ht)
  have hdim0 : t.shape.getD 0 0 = e * r := by rw [ht]; rfl
  have hdim1 : t.shape.getD 1 0 = c := by rw [ht]; rfl
  have hdiv : ¬ e * r % r ≠ 0 := not_not.mpr (Nat.mul_mod_left e r)
  simp only [reshapeExpertLoraForEp, if_neg hndim, if_neg hr.ne', hdim0, hdim1, if_neg hdiv,
    Nat.mul_div_cancel _ hr, reshape_rows ht, lift]

theorem reshapeExpertLoraForEp_B {e r c : Nat} (hr : 0 < r) (ht : t.shape = [c, r * e]) :
    reshapeExpertLoraForEp t .B r label = .ok (Tensor.build [e, c, r] fun index =>
      t.entry [index.getD 1 0, index.getD 2 0 * e + index.getD 0 0]) := by
  have hndim : ¬ t.ndim ≠ 2 := not_not.mpr (congrArg List.length ht)
  have hdim0 : t.shape.getD 0 0 = c := by rw [ht]; rfl
  have hdim1 : t.shape.getD 1 0 = r * e := by rw [ht]; rfl
  have hdiv : ¬ r * e % r ≠ 0 := not_not.mpr (Nat.mul_mod_right r e)
  simp only [reshapeExpertLoraForEp, if_neg hndim, if_neg hr.ne', hdim0, hdim1, if_neg hdiv,
    Nat.mul_div_cancel_left _ hr, reshape_columns ht, lift, bind_ok]
  refine congrArg Except.ok (Tensor.build_congr ?_)
  intro index hindex
  obtain ⟨x, hx, i, hi, k, hk, rfl⟩ := inBounds_three.mp hindex
  exact Tensor.entry_build _ (inBounds_three.mpr ⟨i, hi, k, hk, x, hx, rfl⟩)

/-! ## The exports of all ranks -/

/-- The matrix of every expert, out of the shards `u` of `n` ranks with `e` experts each. -/
def expertMatrices (kind : Kind) (n e r c : Nat) (u : Nat → Tensor α) : Tensor α :=
  match kind with
  | .A => Tensor.build [n * e, r, c] fun index =>
    (u (index.getD 0 0 / e)).entry [index.getD 0 0 % e * r + index.getD 1 0, index.getD 2 0]
  | .B => Tensor.build [n * e, c, r] fun index =>
    (u (index.getD 0 0 / e)).entry [index.getD 1 0, index.getD 2 0 * e + index.getD 0 0 % e]

/-- The shape of a shard. -/
def shardShape (kind : Kind) (e r c : Nat) : List Nat :=
  match kind with
  | .A => [e * r, c]
  | .B => [c, r * e]

variable {n e r c : Nat} {u : Nat → Tensor α}

theorem samplerLocals_eq {kind : Kind} (hn : 0 < n) (hr : 0 < r)
    (hu : ∀ p < n, (u p).shape = shardShape kind e r c) :
    (do let locals ← ((range n).map u).mapM fun shard => reshapeExpertLoraForEp shard kind r label
        lift (Tensor.cat locals 0)) = .ok (expertMatrices kind n e r c u) := by
  cases kind with
  | A =>
    have hlocals : ∀ p ∈ range n, _ :=
      fun p hp => reshapeExpertLoraForEp_A label hr (hu p (mem_range.mp hp))
    rw [mapM_map]
    simp only [Function.comp_def]
    have hcat := Tensor.cat_range (d := 0) (w := e) hn rfl fun p (_ : p < n) =>
      Tensor.shape_build [e, r, c] fun index => (u p).entry [index.getD 0 0 * r + index.getD 1 0, index.getD 2 0]
    rw [mapM_ok hlocals, bind_ok, hcat]
    refine congrArg Except.ok (Tensor.build_congr ?_)
    intro index hindex
    obtain ⟨x, hx, k, hk, j, hj, rfl⟩ := inBounds_three.mp hindex
    have he : 0 < e := pos_of_ne_zero fun h => by simp [h] at hx
    exact Tensor.entry_build _ (inBounds_three.mpr ⟨_, Nat.mod_lt x he, k, hk, j, hj, rfl⟩)
  | B =>
    have hlocals : ∀ p ∈ range n, _ :=
      fun p hp => reshapeExpertLoraForEp_B label hr (hu p (mem_range.mp hp))
    rw [mapM_map]
    simp only [Function.comp_def]
    have hcat := Tensor.cat_range (d := 0) (w := e) hn rfl fun p (_ : p < n) =>
      Tensor.shape_build [e, c, r] fun index => (u p).entry [index.getD 1 0, index.getD 2 0 * e + index.getD 0 0]
    rw [mapM_ok hlocals, bind_ok, hcat]
    refine congrArg Except.ok (Tensor.build_congr ?_)
    intro index hindex
    obtain ⟨x, hx, i, hi, k, hk, rfl⟩ := inBounds_three.mp hindex
    have he : 0 < e := pos_of_ne_zero fun h => by simp [h] at hx
    exact Tensor.entry_build _ (inBounds_three.mpr ⟨_, Nat.mod_lt x he, i, hi, k, hk, rfl⟩)

/-- The experts of the factor A that a checkpoint stores. -/
theorem gathered_A (hn : 0 < n) (hr : 0 < r) (hu : ∀ p < n, (u p).shape = [e * r, c]) :
    (gatherEpExpertLora ((range n).map u) .A r >>= fun gathered =>
      reshapeExpertLoraForEp gathered .A r label) = .ok (expertMatrices .A n e r c u) := by
  simp only [gatherEpExpertLora]
  rw [Tensor.cat_range hn rfl hu]
  have hshape : ∀ f : List Nat → α, (Tensor.build ([e * r, c].set 0 (n * (e * r))) f).shape =
      [n * e * r, c] := by
    intro f
    rw [mul_assoc]
    rfl
  refine (reshapeExpertLoraForEp_A label hr (hshape _)).trans ?_
  refine congrArg Except.ok (Tensor.build_congr ?_)
  intro index hindex
  obtain ⟨x, hx, k, hk, j, hj, rfl⟩ := inBounds_three.mp hindex
  have he : 0 < e := pos_of_ne_zero fun h => by simp [h] at hx
  have hrow : x * r + k < n * (e * r) := by
    have := Nat.mul_le_mul_right r (Nat.succ_le_of_lt hx)
    rw [Nat.succ_mul, mul_assoc] at this
    omega
  -- a row of the stacked shards, by its expert and its row there
  have hsplit : x * r + k = x / e * (e * r) + (x % e * r + k) := by
    conv_lhs => rw [← Nat.div_add_mod' x e, add_mul, mul_assoc]
    omega
  have hlocal : x % e * r + k < e * r := by
    have := Nat.mul_le_mul_right r (Nat.succ_le_of_lt (Nat.mod_lt x he))
    rw [Nat.succ_mul] at this
    omega
  have hdiv : (x * r + k) / (e * r) = x / e := by
    rw [hsplit, mul_comm (x / e), Nat.mul_add_div (mul_pos he hr), Nat.div_eq_of_lt hlocal,
      add_zero]
  have hmod : (x * r + k) % (e * r) = x % e * r + k := by
    rw [hsplit, mul_comm (x / e), Nat.mul_add_mod, Nat.mod_eq_of_lt hlocal]
  refine (Tensor.entry_build _ (inBounds_two.mpr ⟨_, hrow, j, hj, rfl⟩)).trans ?_
  simp [hdiv, hmod]

/-- The experts of the factor B that a checkpoint stores. -/
theorem gathered_B (hn : 0 < n) (hr : 0 < r) (hc : 0 < c) (hu : ∀ p < n, (u p).shape = [c, r * e]) :
    (gatherEpExpertLora ((range n).map u) .B r >>= fun gathered =>
      reshapeExpertLoraForEp gathered .B r label) = .ok (expertMatrices .B n e r c u) := by
  have hview : ∀ p ∈ range n, viewRest (u p) [(u p).shape.getD 0 0, r] =
      .ok (Tensor.build [c, r, e] fun index =>
        (u p).entry [index.getD 0 0, index.getD 1 0 * e + index.getD 2 0]) := by
    intro p hp
    have ht := hu p (mem_range.mp hp)
    have hdim0 : (u p).shape.getD 0 0 = c := by rw [ht]; rfl
    have hsize : (u p).data.length = c * r * e := by
      rw [(u p).size, ht]
      simp [mul_assoc]
    have hpos : 0 < c * r := mul_pos hc hr
    have hprod : [c, r].prod = c * r := by simp
    rw [viewRest, hdim0, hprod, if_neg hpos.ne', hsize, Nat.mul_div_cancel_left e hpos]
    exact congrArg lift (reshape_columns ht)
  simp only [gatherEpExpertLora]
  rw [mapM_map]
  simp only [Function.comp_def]
  have hcat := Tensor.cat_range (d := 2) (w := e) hn rfl fun p (_ : p < n) =>
    Tensor.shape_build [c, r, e] fun index =>
      (u p).entry [index.getD 0 0, index.getD 1 0 * e + index.getD 2 0]
  rw [mapM_ok hview, bind_ok, hcat]
  generalize hjoined : (Tensor.build ([c, r, e].set 2 (n * e)) fun index =>
    (Tensor.build [c, r, e] fun index_1 => (u (index.getD 2 0 / e)).entry
      [index_1.getD 0 0, index_1.getD 1 0 * e + index_1.getD 2 0]).entry
        (index.set 2 (index.getD 2 0 % e))) = joined
  have hshape : joined.shape = [c, r, n * e] := by rw [← hjoined]; rfl
  obtain ⟨flat, hflat⟩ : ∃ flat, joined.reshape [c, r * (n * e)] = .ok flat :=
    ⟨_, Tensor.reshape_ok (by rw [hshape]; simp)⟩
  have hflatShape : flat.shape = [c, r * (n * e)] := by
    rw [Tensor.reshape_ok (by rw [hshape]; simp)] at hflat
    rw [← Except.ok.inj hflat]
    rfl
  -- the factor is the flat view of the joined shards, and its view is the joined shards
  have hback := Tensor.reshape_reshape hflat
  rw [hshape, reshape_columns hflatShape] at hback
  have hdims : [joined.shape.getD 0 0, (joined.shape.drop 1).prod] = [c, r * (n * e)] := by
    rw [hshape]
    simp
  simp only [lift, bind_ok, hdims, hflat]
  rw [reshapeExpertLoraForEp_B label hr hflatShape]
  refine congrArg Except.ok (Tensor.build_congr ?_)
  intro index hindex
  obtain ⟨x, hx, i, hi, k, hk, rfl⟩ := inBounds_three.mp hindex
  have he : 0 < e := pos_of_ne_zero fun h => by simp [h] at hx
  have hentry : flat.entry [i, k * (n * e) + x] = joined.entry [i, k, x] := by
    have hbounds : InBounds [c, r, n * e] [i, k, x] := inBounds_three.mpr ⟨i, hi, k, hk, x, hx, rfl⟩
    rw [← Except.ok.inj hback, Tensor.entry_build _ hbounds]
    rfl
  refine hentry.trans ?_
  rw [← hjoined]
  refine (Tensor.entry_build _ (inBounds_three.mpr ⟨i, hi, k, hk, x, hx, rfl⟩)).trans ?_
  exact Tensor.entry_build _ (inBounds_three.mpr ⟨i, hi, k, hk, _, Nat.mod_lt x he, rfl⟩)

/-- A checkpoint's factor and the factor that the sampler is sent give every expert the same matrix:
expert `j` of rank `p` is global expert `p * e + j`. -/
theorem expertLora_layouts_agree {config : PeftConfig} {path : List String} (hA : "lora_A" ∉ path)
    (hB : "lora_B" ∉ path) {kind : Kind} {adapter : String} (hadapter : adapter ≠ "lora_B")
    {n e r c : Nat} (hr : (Dicts.lookup adapter config).bind positiveRank = some r) {u : Nat → Tensor α}
    (label : String) (hn : 0 < n) (hc : kind = .B → 0 < c)
    (hu : ∀ p < n, (u p).shape = shardShape kind e r c) :
    (checkpointFactor config (path ++ [kind.part, adapter, "weight"]) ((range n).map u) >>=
        fun gathered => reshapeExpertLoraForEp gathered kind r label) =
      samplerFactor config kind adapter label ((range n).map u) ∧
    samplerFactor config kind adapter label ((range n).map u) =
      .ok (expertMatrices kind n e r c u) := by
  have hpos : 0 < r := by
    obtain ⟨rank, -, hrank⟩ := Option.bind_eq_some_iff.mp hr
    cases rank with
    | none => cases hrank
    | some rank =>
      rw [positiveRank] at hrank
      split at hrank
      · next h =>
        obtain rfl := Option.some.inj hrank
        omega
      · cases hrank
  obtain ⟨hcheckpoint, hsampler⟩ := peftAdapterRank_name hA hB kind hr
  have hsent : samplerFactor config kind adapter label ((range n).map u) =
      .ok (expertMatrices kind n e r c u) := by
    simp only [samplerFactor, hsampler, bind_ok]
    exact samplerLocals_eq label hn hpos hu
  have hkind : (if "lora_B" ∈ path ++ [kind.part, adapter, "weight"] then Kind.B else Kind.A) = kind := by
    cases kind with
    | A => exact if_neg (by simp [hB, Kind.part, hadapter.symm])
    | B => exact if_pos (by simp [Kind.part])
  refine ⟨?_, hsent⟩
  rw [hsent]
  simp only [checkpointFactor, hcheckpoint, bind_ok, hkind]
  cases kind with
  | A => exact gathered_A label hn hpos hu
  | B => exact gathered_B label hn hpos (hc rfl) hu

end

/-! ## Examples -/

/-- A shard with its values numbered through. -/
def sampleShard (shape : List Nat) (p : Nat) : Tensor Int :=
  Tensor.build shape fun index => p * 100 + index.getD 0 0 * 10 + index.getD 1 0

/-- Factor A without input features and factor B of three output features, of two experts a rank. -/
theorem expertLora_layouts_agree_two :
    samplerFactor [("default", some 2)] .A "default" "w1" ((range 2).map (sampleShard [4, 0])) =
      .ok (expertMatrices .A 2 2 2 0 (sampleShard [4, 0])) ∧
    samplerFactor [("default", some 2)] .B "default" "w1" ((range 2).map (sampleShard [3, 4])) =
      .ok (expertMatrices .B 2 2 2 3 (sampleShard [3, 4])) := by
  have hA := @expertLora_layouts_agree Int _ [("default", some 2)] ["experts"] (by decide) (by decide)
    .A "default" (by decide) 2 2 2 0 (by decide) (sampleShard [4, 0]) "w1" (by decide) (by decide)
    fun _ _ => rfl
  have hB := @expertLora_layouts_agree Int _ [("default", some 2)] ["experts"] (by decide) (by decide)
    .B "default" (by decide) 2 2 2 3 (by decide) (sampleShard [3, 4]) "w1" (by decide) (by decide)
    fun _ _ => rfl
  exact ⟨hA.2, hB.2⟩

/-- Without output features the last size of the view cannot be inferred, and an adapter that is named
as factor B is takes its factor A for one. -/
theorem expertLora_layouts_disagree :
    (checkpointFactor [("default", some 2)] ["experts", "lora_B", "default", "weight"]
      ((range 2).map (sampleShard [0, 4])) = .error (.torch .shapeMismatch) ∧
    samplerFactor [("default", some 2)] .B "default" "w1" ((range 2).map (sampleShard [0, 4])) =
      .ok (Tensor.build [4, 0, 2] fun _ => 0)) ∧
    checkpointFactor [("lora_B", some 2)] ["experts", "lora_A", "lora_B", "weight"]
      ((range 2).map (sampleShard [2, 1])) = .error (.torch .shapeMismatch) ∧
    samplerFactor [("lora_B", some 2)] .A "lora_B" "w1" ((range 2).map (sampleShard [2, 1])) =
      .ok (expertMatrices .A 2 1 2 1 (sampleShard [2, 1])) := ⟨⟨rfl, rfl⟩, rfl, rfl⟩

end ArcticPlatform.WeightExport
