import ArcticPlatform.Library.Results
import ArcticPlatform.RouterReplay.Plan

/-!
# Router replay: what a plan contains

Every rank computes the plan on its own, so the plan may not depend on the order
in which the manifests arrive, and each transfer has to be one that the sender
and the receiver both know.

Main results:

- Theorem `exchangeManifest_perm`: the decision to proceed, the plan and the
  rounds do not depend on the order of the gather.
- Theorem `computePlan_correct`: the transfers of a plan, its owners, its missing
  ids and its token ranges.
-/

namespace ArcticPlatform.RouterReplay

open Results List Function

/-! ## Order of the gather -/

theorem perm_byRank (manifests : List PerRankManifest) : (byRank manifests).Perm manifests :=
  perm_insertionSort _ manifests

theorem pairwise_byRank (manifests : List PerRankManifest) :
    (byRank manifests).Pairwise fun a b => a.rank ≤ b.rank := by
  let le : PerRankManifest → PerRankManifest → Prop := fun a b => a.rank ≤ b.rank
  have : Std.Total le := ⟨fun a b => le_total a.rank b.rank⟩
  have : IsTrans PerRankManifest le := ⟨fun _ _ _ => le_trans⟩
  exact pairwise_insertionSort le manifests

variable {gathered manifests : List PerRankManifest}

theorem byRank_perm (h : gathered.Perm manifests)
    (hranks : (manifests.map (·.rank)).Nodup) : byRank gathered = byRank manifests := by
  apply List.Perm.eq_of_pairwise _ (pairwise_byRank gathered) (pairwise_byRank manifests)
  · exact (perm_byRank gathered).trans (h.trans (perm_byRank manifests).symm)
  · intro a b ha hb hab hba
    have ha' : a ∈ manifests := h.mem_iff.mp ((perm_byRank gathered).mem_iff.mp ha)
    have hb' : b ∈ manifests := (perm_byRank manifests).mem_iff.mp hb
    exact inj_on_of_nodup_map hranks ha' hb' (le_antisymm hab hba)

theorem all_perm (h : gathered.Perm manifests)
    (f : PerRankManifest → Bool) : gathered.all f = manifests.all f := by
  rw [Bool.eq_iff_iff, all_eq_true, all_eq_true]
  constructor
  · exact fun hall m hm => hall m (h.mem_iff.mpr hm)
  · exact fun hall m hm => hall m (h.mem_iff.mp hm)

theorem computePlan_perm (h : gathered.Perm manifests)
    (hranks : (manifests.map (·.rank)).Nodup) : computePlan gathered = computePlan manifests := by
  simp only [computePlan, byRank_perm h hranks, all_perm h]

theorem roundBudget_perm
    (h : gathered.Perm manifests) : roundBudget gathered = roundBudget manifests := by
  have hbudgets : (stagingBudgets gathered).Perm (stagingBudgets manifests) := h.filterMap _
  have hmin : (stagingBudgets gathered).min? = (stagingBudgets manifests).min? := by
    ext b
    rw [min?_eq_some_iff, min?_eq_some_iff, hbudgets.mem_iff]
    constructor
    · exact fun hb => ⟨hb.1, fun c hc => hb.2 c (hbudgets.mem_iff.mpr hc)⟩
    · exact fun hb => ⟨hb.1, fun c hc => hb.2 c (hbudgets.mem_iff.mp hc)⟩
  simp only [roundBudget, all_perm h, hmin]

/-- Every rank reaches the same decision, the same plan and the same rounds. -/
theorem exchangeManifest_perm
    (h : gathered.Perm manifests) (hranks : (manifests.map (·.rank)).Nodup) :
    exchangeManifest gathered = exchangeManifest manifests := by
  have htolerated : missingIsTolerated gathered = missingIsTolerated manifests := by
    funext missing
    simp only [missingIsTolerated, all_perm h]
  have hrounds : planRounds gathered = planRounds manifests := by
    funext plan
    simp only [planRounds, roundBudget_perm h]
  unfold exchangeManifest
  rw [computePlan_perm h hranks, htolerated, hrounds]

/-! ## What the senders hold -/

/-- The ids that the manifest contributes to `owners`. -/
def PerRankManifest.holdings (m : PerRankManifest) : List String :=
  if m.role = .sender then m.held else []

/-- The ids that the manifest asks for. -/
def PerRankManifest.needs (m : PerRankManifest) : List String :=
  if m.role = .receiver then m.needed else []

/-- The pairs of manifest and id that a loop over both goes through. -/
def pairsOf (ids : PerRankManifest → List String) (l : List PerRankManifest) :
    List (PerRankManifest × String) := l.flatMap fun m => (ids m).map (Prod.mk m)

variable {l : List PerRankManifest} {m : PerRankManifest} {sid : String}

theorem mem_pairsOf {ids : PerRankManifest → List String} :
    (m, sid) ∈ pairsOf ids l ↔ m ∈ l ∧ sid ∈ ids m := by
  simp only [pairsOf, mem_flatMap, mem_map, Prod.mk.injEq]
  constructor
  · rintro ⟨m', hm', sid', hsid', rfl, rfl⟩
    exact ⟨hm', hsid'⟩
  · rintro ⟨hm, hsid⟩
    exact ⟨m, hm, sid, hsid, rfl, rfl⟩

theorem foldlM_holdAll (l : List PerRankManifest) (h : Holdings) :
    l.foldlM Holdings.holdAll h =
      (pairsOf PerRankManifest.holdings l).foldlM (fun h p => h.hold p.1 p.2) h := by
  have hloop : Holdings.holdAll = fun h m => m.holdings.foldlM (Holdings.hold m) h := by
    funext h m
    by_cases hrole : m.role = .sender
    · simp [Holdings.holdAll, PerRankManifest.holdings, hrole]
    · simp [Holdings.holdAll, PerRankManifest.holdings, hrole]
      rfl
  rw [hloop]
  exact foldlM_nested PerRankManifest.holdings (fun m h sid => h.hold m sid) l h

/-- The first pair that holds an id. -/
def firstOf (pairs : List (PerRankManifest × String)) (sid : String) :
    Option (PerRankManifest × String) := pairs.find? fun p => p.2 = sid

/-- What the dictionaries say of the pairs that the loop has gone through. -/
structure Holdings.Of (h : Holdings) (pairs : List (PerRankManifest × String)) : Prop where
  owner : ∀ sid, h.owner sid = (firstOf pairs sid).map fun p => p.1.rank
  shape : ∀ sid p, firstOf pairs sid = some p →
    ∃ shape, p.1.shapes sid = some shape ∧ h.shapeBySid sid = some shape
  dtype : ∀ sid p, firstOf pairs sid = some p →
    ∃ dtype, p.1.dtypeOf sid = .ok dtype ∧ h.dtypeBySid sid = some dtype
  owners : ∀ sid, (h.owners sid).length = pairs.countP fun p => p.2 = sid
  ids : ∀ sid, sid ∈ h.ids ↔ ∃ p ∈ pairs, p.2 = sid

theorem holdings_init : Holdings.init.Of [] := by
  constructor <;> simp [Holdings.init, firstOf]

theorem firstOf_snoc (pairs : List (PerRankManifest × String)) (m : PerRankManifest)
    (sid x : String) :
    firstOf (pairs ++ [(m, sid)]) x =
      (firstOf pairs x).or (if sid = x then some (m, sid) else none) := by
  simp only [firstOf, find?_append, find?_singleton, decide_eq_true_eq]

theorem lookupKey_eq_ok {α : Type} {d : String → Option α} {key : String} {v : α} :
    lookupKey d key = .ok v ↔ d key = some v := by
  unfold lookupKey
  cases d key with
  | none => simp
  | some w => simp

variable {h : Holdings}

theorem addOwner_of {pairs : List (PerRankManifest × String)} (hof : h.Of pairs)
    (m : PerRankManifest) (sid : String) :
    (∀ x, ((h.addOwner sid m.rank).owners x).length =
      (pairs ++ [(m, sid)]).countP fun p => p.2 = x) ∧
    ∀ x, x ∈ (h.addOwner sid m.rank).ids ↔ ∃ p ∈ pairs ++ [(m, sid)], p.2 = x := by
  constructor
  · intro x
    rw [countP_append, ← hof.owners x]
    by_cases hx : sid = x
    · subst hx
      simp [Holdings.addOwner]
    · simp [Holdings.addOwner, hx, update_of_ne (Ne.symm hx)]
  · intro x
    have hids := hof.ids
    have hmem : x ∈ (h.addOwner sid m.rank).ids ↔ x ∈ h.ids ∨ x = sid := by
      simp only [Holdings.addOwner]
      split
      · rename_i hsid
        constructor
        · exact Or.inl
        · rintro (hx | rfl)
          · exact hx
          · exact hsid
      · simp
    rw [hmem, hids]
    constructor
    · rintro (⟨p, hp, rfl⟩ | rfl)
      · exact ⟨p, by simp [hp], rfl⟩
      · exact ⟨(m, x), by simp, rfl⟩
    · rintro ⟨p, hp, rfl⟩
      rcases mem_append.mp hp with hp | hp
      · exact .inl ⟨p, hp, rfl⟩
      · exact .inr (by rw [mem_singleton.mp hp])

/-- One turn of the loop over the held ids. -/
theorem hold_of {h h' : Holdings} {pairs : List (PerRankManifest × String)} (hof : h.Of pairs)
    (hhold : h.hold m sid = .ok h') : h'.Of (pairs ++ [(m, sid)]) := by
  obtain ⟨howners, hids⟩ := addOwner_of hof m sid
  unfold Holdings.hold at hhold
  split at hhold
  · rename_i howned
    cases hhold
    -- The id has an owner already, so the first pair of every id stays what it is.
    have hfirst : ∀ x, firstOf (pairs ++ [(m, sid)]) x = firstOf pairs x := by
      intro x
      rw [firstOf_snoc]
      by_cases hx : sid = x
      · subst hx
        rw [hof.owner] at howned
        cases hp : firstOf pairs sid with
        | none => simp [hp] at howned
        | some p => simp
      · simp [hx]
    constructor
    case owner =>
      intro x
      rw [hfirst]
      exact hof.owner x
    case shape =>
      intro x p hp
      rw [hfirst] at hp
      exact hof.shape x p hp
    case dtype =>
      intro x p hp
      rw [hfirst] at hp
      exact hof.dtype x p hp
    case owners => exact howners
    case ids => exact hids
  · rename_i hfree
    obtain ⟨shape, hshape, hhold⟩ := bind_eq_ok.mp hhold
    obtain ⟨dtype, hdtype, hhold⟩ := bind_eq_ok.mp hhold
    cases hhold
    have hnone : firstOf pairs sid = none := by
      rw [hof.owner] at hfree
      simpa using hfree
    have hself : firstOf (pairs ++ [(m, sid)]) sid = some (m, sid) := by
      rw [firstOf_snoc, hnone]
      simp
    have hother : ∀ x, x ≠ sid → firstOf (pairs ++ [(m, sid)]) x = firstOf pairs x := by
      intro x hx
      rw [firstOf_snoc, if_neg (Ne.symm hx), Option.or_none]
    constructor
    case owner =>
      intro x
      by_cases hx : x = sid
      · subst hx
        simp [hself]
      · simp [hother x hx, update_of_ne hx, hof.owner x]
    case shape =>
      intro x p hp
      by_cases hx : x = sid
      · subst hx
        rw [hself] at hp
        cases hp
        exact ⟨shape, lookupKey_eq_ok.mp hshape, by simp⟩
      · rw [hother x hx] at hp
        simp only [update_of_ne hx]
        exact hof.shape x p hp
    case dtype =>
      intro x p hp
      by_cases hx : x = sid
      · subst hx
        rw [hself] at hp
        cases hp
        exact ⟨dtype, hdtype, by simp⟩
      · rw [hother x hx] at hp
        simp only [update_of_ne hx]
        exact hof.dtype x p hp
    case owners => exact howners
    case ids => exact hids

theorem holdings_of (hloop : l.foldlM Holdings.holdAll .init = .ok h) :
    h.Of (pairsOf PerRankManifest.holdings l) := by
  rw [foldlM_holdAll] at hloop
  refine foldlM_invariant (P := fun done h => h.Of done) holdings_init ?_ hloop
  intro done p h h' hof hhold
  exact hold_of hof hhold

/-! ## Owners -/

/-- A sender that holds an id. -/
structure Holds (manifests : List PerRankManifest) (sid : String) (m : PerRankManifest) : Prop where
  mem : m ∈ manifests
  sender : m.role = .sender
  held : sid ∈ m.held

/-- The lowest-ranked sender that holds an id. -/
structure IsOwner (manifests : List PerRankManifest) (sid : String) (m : PerRankManifest) : Prop
    extends Holds manifests sid m where
  lowest : ∀ m', Holds manifests sid m' → m.rank ≤ m'.rank

/-- The pairs of the senders, in the order of the loop. -/
def heldPairs (manifests : List PerRankManifest) : List (PerRankManifest × String) :=
  pairsOf PerRankManifest.holdings (byRank manifests)

variable {manifests : List PerRankManifest}

theorem mem_heldPairs : (m, sid) ∈ heldPairs manifests ↔ Holds manifests sid m := by
  rw [heldPairs, mem_pairsOf, (perm_byRank manifests).mem_iff, PerRankManifest.holdings]
  constructor
  · rintro ⟨hm, hsid⟩
    split at hsid
    · rename_i hrole
      exact ⟨hm, hrole, hsid⟩
    · cases hsid
  · intro h
    rw [if_pos h.sender]
    exact ⟨h.mem, h.held⟩

theorem pairwise_heldPairs (manifests : List PerRankManifest) :
    (heldPairs manifests).Pairwise fun p q => p.1.rank ≤ q.1.rank := by
  rw [heldPairs, pairsOf, pairwise_flatMap]
  constructor
  · intro m _
    rw [pairwise_map]
    exact pairwise_of_forall fun _ _ => le_refl _
  · refine (pairwise_byRank manifests).imp ?_
    intro a b hab p hp q hq
    obtain ⟨_, _, rfl⟩ := mem_map.mp hp
    obtain ⟨_, _, rfl⟩ := mem_map.mp hq
    exact hab

theorem isOwner_of_firstOf {p : PerRankManifest × String}
    (h : firstOf (heldPairs manifests) sid = some p) : IsOwner manifests sid p.1 := by
  obtain ⟨hsid, before, after, hpairs, hbefore⟩ := find?_eq_some_iff_append.mp h
  obtain ⟨m, x⟩ := p
  have hx : x = sid := of_decide_eq_true hsid
  subst hx
  have hsorted := pairwise_heldPairs manifests
  rw [hpairs, pairwise_append, pairwise_cons] at hsorted
  have hmem : (m, x) ∈ heldPairs manifests := by
    rw [hpairs]
    simp
  refine ⟨mem_heldPairs.mp hmem, ?_⟩
  intro m' hm'
  have hmem' := mem_heldPairs.mpr hm'
  rw [hpairs, mem_append, mem_cons] at hmem'
  rcases hmem' with hm' | hm' | hm'
  · have := hbefore _ hm'
    simp at this
  · cases hm'
    exact le_refl _
  · exact hsorted.2.1.1 _ hm'

theorem firstOf_eq_none :
    firstOf (heldPairs manifests) sid = none ↔ ¬ ∃ m, Holds manifests sid m := by
  rw [firstOf, find?_eq_none]
  constructor
  · rintro h ⟨m, hm⟩
    have := h _ (mem_heldPairs.mpr hm)
    simp at this
  · intro h p hp hsid
    obtain ⟨m, x⟩ := p
    have hx : x = sid := of_decide_eq_true hsid
    subst hx
    exact h ⟨m, mem_heldPairs.mp hp⟩

/-! ## The loop over the needed ids -/

theorem foldlM_planNeeds (slicing : Bool) (h : Holdings) (l : List PerRankManifest)
    (acc : List TransferOp × Finset String) :
    l.foldlM (planNeeds slicing h) acc =
      (pairsOf PerRankManifest.needs l).foldlM (fun acc p => planNeed slicing h p.1 acc p.2) acc := by
  have hloop : planNeeds slicing h = fun acc m => m.needs.foldlM (planNeed slicing h m) acc := by
    funext acc m
    by_cases hrole : m.role = .receiver
    · simp [planNeeds, PerRankManifest.needs, hrole]
    · simp [planNeeds, PerRankManifest.needs, hrole]
      rfl
  rw [hloop]
  exact foldlM_nested PerRankManifest.needs (fun m acc sid => planNeed slicing h m acc sid) l acc

/-- A transfer that serves a need from the dictionaries. -/
structure Serves (slicing : Bool) (h : Holdings) (m : PerRankManifest) (sid : String)
    (op : TransferOp) : Prop where
  recvRank : op.recvRank = m.rank
  sampleId : op.sampleId = sid
  discard : op.discard = m.discard
  owner : h.owner sid = some op.senderRank
  shape : h.shapeBySid sid = some op.shape
  dtype : h.dtypeBySid sid = some op.dtype
  range : m.requestedRange slicing sid op.shape = .ok op.tokenRange

/-- What the loop has planned for the needs it has gone through. -/
structure Planned (slicing : Bool) (h : Holdings) (needs : List (PerRankManifest × String))
    (acc : List TransferOp × Finset String) : Prop where
  keys : acc.1.map (fun op => (op.recvRank, op.sampleId)) =
    (needs.filter fun p => (h.owner p.2).isSome).map fun p => (p.1.rank, p.2)
  serves : ∀ op ∈ acc.1, ∃ p ∈ needs, Serves slicing h p.1 p.2 op
  missing : ∀ sid, sid ∈ acc.2 ↔ h.owner sid = none ∧ ∃ p ∈ needs, p.2 = sid

variable {slicing : Bool}

/-- One turn of the loop over the needed ids. -/
theorem planned_planNeed {needs : List (PerRankManifest × String)}
    {acc acc' : List TransferOp × Finset String} (hplanned : Planned slicing h needs acc)
    (hneed : planNeed slicing h m acc sid = .ok acc') :
    Planned slicing h (needs ++ [(m, sid)]) acc' := by
  have hneeds : ∀ x, (∃ p ∈ needs ++ [(m, sid)], p.2 = x) ↔ (∃ p ∈ needs, p.2 = x) ∨ x = sid := by
    intro x
    simp only [mem_append, mem_singleton]
    constructor
    · rintro ⟨p, hp | rfl, rfl⟩
      · exact .inl ⟨p, hp, rfl⟩
      · exact .inr rfl
    · rintro (⟨p, hp, rfl⟩ | rfl)
      · exact ⟨p, .inl hp, rfl⟩
      · exact ⟨(m, x), .inr rfl, rfl⟩
  unfold planNeed at hneed
  split at hneed
  · rename_i hnone
    cases hneed
    constructor
    case keys =>
      rw [filter_append]
      simpa [hnone] using hplanned.keys
    case serves =>
      intro op hop
      obtain ⟨p, hp, hserves⟩ := hplanned.serves op hop
      exact ⟨p, mem_append_left _ hp, hserves⟩
    case missing =>
      intro x
      rw [Finset.mem_insert, hplanned.missing, hneeds]
      by_cases hx : x = sid
      · subst hx
        simp [hnone]
      · simp [hx]
  · rename_i senderRank howner
    obtain ⟨shape, hshape, hneed⟩ := bind_eq_ok.mp hneed
    obtain ⟨tokenRange, hrange, hneed⟩ := bind_eq_ok.mp hneed
    obtain ⟨dtype, hdtype, hneed⟩ := bind_eq_ok.mp hneed
    cases hneed
    constructor
    case keys =>
      rw [filter_append, map_append, map_append, hplanned.keys]
      simp [howner]
    case serves =>
      intro op hop
      rcases mem_append.mp hop with hop | hop
      · obtain ⟨p, hp, hserves⟩ := hplanned.serves op hop
        exact ⟨p, mem_append_left _ hp, hserves⟩
      · rw [mem_singleton.mp hop]
        refine ⟨(m, sid), by simp, ?_⟩
        exact ⟨rfl, rfl, rfl, howner, lookupKey_eq_ok.mp hshape, lookupKey_eq_ok.mp hdtype, hrange⟩
    case missing =>
      intro x
      rw [hplanned.missing, hneeds]
      by_cases hx : x = sid
      · subst hx
        simp [howner]
      · simp [hx]

theorem planned_of {acc : List TransferOp × Finset String}
    (hloop : l.foldlM (planNeeds slicing h) ([], ∅) = .ok acc) :
    Planned slicing h (pairsOf PerRankManifest.needs l) acc := by
  rw [foldlM_planNeeds] at hloop
  refine foldlM_invariant (P := fun done acc => Planned slicing h done acc) ?_ ?_ hloop
  · exact ⟨rfl, by simp, by simp⟩
  · intro done p acc acc' hplanned hneed
    exact planned_planNeed hplanned hneed

/-! ## The plan -/

variable {plan : List TransferOp} {missing : Finset String}

theorem computePlan_eq_ok (h : computePlan manifests = .ok (plan, missing)) :
    ∃ holdings : Holdings, holdings.Of (heldPairs manifests) ∧ holdings.duplicateExact = [] ∧
      Planned (manifests.all (·.supportsTokenRanges)) holdings
        (pairsOf PerRankManifest.needs (byRank manifests)) (plan, missing) := by
  obtain ⟨holdings, hloop, h⟩ := bind_eq_ok.mp h
  split at h
  · cases h
  · rename_i hdup
    exact ⟨holdings, holdings_of hloop, not_not.mp hdup, planned_of h⟩

theorem mem_needs : sid ∈ m.needs ↔ m.role = .receiver ∧ sid ∈ m.needed := by
  unfold PerRankManifest.needs
  split <;> simp [*]

theorem mem_neededPairs :
    (m, sid) ∈ pairsOf PerRankManifest.needs (byRank manifests) ↔
      m ∈ manifests ∧ m.role = .receiver ∧ sid ∈ m.needed := by
  rw [mem_pairsOf, (perm_byRank manifests).mem_iff, mem_needs]

theorem count_map_filter {α β : Type} [BEq β] [LawfulBEq β] (f : α → β) {keep : α → Bool} {b : β}
    (l : List α) (hkeep : ∀ a, f a = b → keep a) :
    ((l.filter keep).map f).count b = (l.map f).count b := by
  rw [count_eq_countP, count_eq_countP, countP_map, countP_map, countP_filter]
  apply countP_congr
  intro a _
  constructor
  · intro h
    exact (Bool.and_eq_true_iff.mp h).1
  · intro h
    exact Bool.and_eq_true_iff.mpr ⟨h, hkeep a (eq_of_beq h)⟩

theorem count_pairsOf_needs (hranks : (l.map (·.rank)).Nodup) (hm : m ∈ l) (sid : String) :
    ((pairsOf PerRankManifest.needs l).map fun p => (p.1.rank, p.2)).count (m.rank, sid) =
      m.needs.count sid := by
  have hone : ∀ x : PerRankManifest,
      ((x.needs.map (Prod.mk x)).map fun p => (p.1.rank, p.2)).count (m.rank, sid) =
        if x.rank = m.rank then x.needs.count sid else 0 := by
    intro x
    rw [map_map]
    split
    · rename_i hx
      rw [← hx]
      exact count_map_of_injective _ _ (fun _ _ h => (Prod.mk.inj h).2) sid
    · rename_i hx
      apply count_eq_zero.mpr
      intro hmem
      obtain ⟨y, -, hy⟩ := mem_map.mp hmem
      exact hx (Prod.mk.inj hy).1
  have hzero : ∀ l' : List PerRankManifest, m.rank ∉ l'.map (·.rank) →
      ((pairsOf PerRankManifest.needs l').map fun p => (p.1.rank, p.2)).count (m.rank, sid) = 0 := by
    intro l' hl'
    apply count_eq_zero.mpr
    intro hmem
    obtain ⟨⟨x, y⟩, hp, hxy⟩ := mem_map.mp hmem
    apply hl'
    rw [← (Prod.mk.inj hxy).1]
    exact mem_map_of_mem (mem_pairsOf.mp hp).1
  induction l with
  | nil => cases hm
  | cons x l ih =>
    rw [map_cons, nodup_cons] at hranks
    rw [pairsOf, flatMap_cons, map_append, count_append, hone, ← pairsOf]
    rcases mem_cons.mp hm with rfl | hm
    · rw [if_pos rfl, hzero l hranks.1, add_zero]
    · have hne : x.rank ≠ m.rank := by
        intro heq
        apply hranks.1
        rw [heq]
        exact mem_map_of_mem hm
      rw [if_neg hne, ih hranks.2 hm, zero_add]

theorem requestedRange_eq_some {shape : List Nat} {range : TokenRange}
    (h : m.requestedRange slicing sid shape = .ok (some range)) :
    ∃ ranges requested dim rest, m.tokenRanges = some ranges ∧ ranges sid = some requested ∧
      shape = dim :: rest ∧ range = .clamp requested dim := by
  unfold PerRankManifest.requestedRange at h
  split at h
  · rename_i ranges hranges
    split at h
    · cases h
    · rename_i requested hrequested
      split at h
      · cases h
      · rename_i dim rest
        cases h
        exact ⟨ranges, requested, dim, rest, hranges, hrequested, rfl, rfl⟩
  · cases h

theorem clamp_stop_le (range : Int × Int) (dim : Nat) : (TokenRange.clamp range dim).stop ≤ dim := by
  simp only [TokenRange.clamp, TokenRange.clampStop]
  omega

/-- What a plan for the manifests contains. -/
structure PlanFor (manifests : List PerRankManifest) (plan : List TransferOp)
    (missing : Finset String) : Prop where
  served : ∀ m ∈ manifests, m.role = .receiver → ∀ sid, (∃ s, Holds manifests sid s) →
    (plan.map fun op => (op.recvRank, op.sampleId)).count (m.rank, sid) = m.needed.count sid
  needed : ∀ op ∈ plan, ∃ m ∈ manifests, m.role = .receiver ∧ m.rank = op.recvRank ∧
    op.sampleId ∈ m.needed
  owner : ∀ op ∈ plan, ∃ s, IsOwner manifests op.sampleId s ∧ s.rank = op.senderRank ∧
    s.shapes op.sampleId = some op.shape ∧ s.dtypeOf op.sampleId = .ok op.dtype
  missing : ∀ sid, sid ∈ missing ↔
    (∃ m ∈ manifests, m.role = .receiver ∧ sid ∈ m.needed) ∧ ¬ ∃ s, Holds manifests sid s
  range : ∀ op ∈ plan, ∀ range, op.tokenRange = some range →
    ∃ dim rest, op.shape = dim :: rest ∧ range.start ≤ range.stop ∧ range.stop ≤ dim

variable {holdings : Holdings}

theorem owner_isSome_iff (hof : holdings.Of (heldPairs manifests)) (sid : String) :
    (holdings.owner sid).isSome ↔ ∃ s, Holds manifests sid s := by
  rw [hof.owner, Option.isSome_map, ← not_iff_not, ← firstOf_eq_none]
  simp

/-- A plan that is computed is a plan for the manifests. -/
theorem planFor_computePlan (hranks : (manifests.map (·.rank)).Nodup)
    (h : computePlan manifests = .ok (plan, missing)) : PlanFor manifests plan missing := by
  obtain ⟨holdings, hof, -, hplanned⟩ := computePlan_eq_ok h
  constructor
  case served =>
    intro m hm hrole sid hheld
    -- An owned id loses no occurrence to the filter.
    have hkeep : ∀ p : PerRankManifest × String, (p.1.rank, p.2) = (m.rank, sid) →
        (holdings.owner p.2).isSome := by
      intro p hp
      rw [(Prod.mk.inj hp).2]
      exact (owner_isSome_iff hof sid).mpr hheld
    have hneeds : m.needs = m.needed := if_pos hrole
    have hranks' : ((byRank manifests).map (·.rank)).Nodup :=
      ((perm_byRank manifests).map _).nodup_iff.mpr hranks
    have hm' : m ∈ byRank manifests := (perm_byRank manifests).mem_iff.mpr hm
    rw [hplanned.keys, count_map_filter _ _ hkeep, count_pairsOf_needs hranks' hm' sid, hneeds]
  case needed =>
    intro op hop
    obtain ⟨⟨m, sid⟩, hp, hserves⟩ := hplanned.serves op hop
    obtain ⟨hm, hrole, hneed⟩ := mem_neededPairs.mp hp
    refine ⟨m, hm, hrole, hserves.recvRank.symm, ?_⟩
    rw [hserves.sampleId]
    exact hneed
  case owner =>
    intro op hop
    obtain ⟨⟨m, sid⟩, -, hserves⟩ := hplanned.serves op hop
    have hsid : op.sampleId = sid := hserves.sampleId
    have howner : holdings.owner sid = some op.senderRank := hserves.owner
    rw [hof.owner] at howner
    obtain ⟨p, hp, hrank⟩ := Option.map_eq_some_iff.mp howner
    obtain ⟨shape, hshape, hshape'⟩ := hof.shape sid p hp
    obtain ⟨dtype, hdtype, hdtype'⟩ := hof.dtype sid p hp
    have h₁ := hserves.shape.symm.trans hshape'
    have h₂ := hserves.dtype.symm.trans hdtype'
    cases h₁
    cases h₂
    rw [hsid]
    exact ⟨p.1, isOwner_of_firstOf hp, hrank, hshape, hdtype⟩
  case missing =>
    intro sid
    have howner : holdings.owner sid = none ↔ ¬ ∃ s, Holds manifests sid s := by
      rw [← owner_isSome_iff hof, Option.not_isSome_iff_eq_none]
    rw [hplanned.missing, howner, and_comm]
    refine and_congr_left' ?_
    constructor
    · rintro ⟨⟨m, x⟩, hp, rfl⟩
      obtain ⟨hm, hrole, hneed⟩ := mem_neededPairs.mp hp
      exact ⟨m, hm, hrole, hneed⟩
    · rintro ⟨m, hm, hrole, hneed⟩
      exact ⟨(m, sid), mem_neededPairs.mpr ⟨hm, hrole, hneed⟩, rfl⟩
  case range =>
    intro op hop range hrange
    obtain ⟨⟨m, sid⟩, -, hserves⟩ := hplanned.serves op hop
    have hrequested := hserves.range
    rw [hrange] at hrequested
    obtain ⟨-, requested, dim, rest, -, -, hshape, rfl⟩ := requestedRange_eq_some hrequested
    exact ⟨dim, rest, hshape, TokenRange.le _, clamp_stop_le requested dim⟩

theorem computePlan_requested (h : computePlan manifests = .ok (plan, missing)) :
    ∀ op ∈ plan, ∃ m ∈ manifests, m.role = .receiver ∧ m.rank = op.recvRank ∧
      m.discard = op.discard ∧
      m.requestedRange (manifests.all (·.supportsTokenRanges)) op.sampleId op.shape =
        .ok op.tokenRange := by
  intro op hop
  obtain ⟨holdings, -, -, hplanned⟩ := computePlan_eq_ok h
  obtain ⟨⟨m, sid⟩, hp, hserves⟩ := hplanned.serves op hop
  obtain ⟨hm, hrole, -⟩ := mem_neededPairs.mp hp
  refine ⟨m, hm, hrole, hserves.recvRank.symm, hserves.discard.symm, ?_⟩
  rw [hserves.sampleId]
  exact hserves.range

theorem computePlan_inj (hranks : (manifests.map (·.rank)).Nodup)
    (h : computePlan manifests = .ok (plan, missing)) {op op' : TransferOp} (hop : op ∈ plan)
    (hop' : op' ∈ plan) (hrecv : op.recvRank = op'.recvRank) (hsid : op.sampleId = op'.sampleId) :
    op = op' := by
  have hplan := planFor_computePlan hranks h
  have hinj : ∀ {a b : PerRankManifest}, a ∈ manifests → b ∈ manifests → a.rank = b.rank → a = b :=
    fun ha hb hab => inj_on_of_nodup_map hranks ha hb hab
  obtain ⟨m, hm, -, hrank, hdiscard, hrange⟩ := computePlan_requested h op hop
  obtain ⟨m', hm', -, hrank', hdiscard', hrange'⟩ := computePlan_requested h op' hop'
  obtain ⟨s, howner, hsender, hshape, hdtype⟩ := hplan.owner op hop
  obtain ⟨s', howner', hsender', hshape', hdtype'⟩ := hplan.owner op' hop'
  have hmm : m = m' := hinj hm hm' (by rw [hrank, hrank', hrecv])
  have hss : s = s' := by
    apply hinj howner.mem howner'.mem
    rw [hsid] at howner
    exact le_antisymm (howner.lowest s' howner'.toHolds) (howner'.lowest s howner.toHolds)
  subst hmm hss
  rw [hsid] at hshape hdtype hrange
  have hshapes : op.shape = op'.shape := Option.some.inj (hshape.symm.trans hshape')
  rw [hshapes] at hrange
  obtain ⟨senderRank, recvRank, sampleId, shape, discard, dtype, tokenRange⟩ := op
  obtain ⟨senderRank', recvRank', sampleId', shape', discard', dtype', tokenRange'⟩ := op'
  simp only [TransferOp.mk.injEq]
  exact ⟨hsender.symm.trans hsender', hrecv, hsid, hshapes, hdiscard.symm.trans hdiscard',
    Except.ok.inj (hdtype.symm.trans hdtype'), Except.ok.inj (hrange.symm.trans hrange')⟩

/-! ## When a plan is computed -/

/-- A sender's manifest gives the shape, with a token axis, and the dtype of every id it holds. -/
def PerRankManifest.Advertises (m : PerRankManifest) : Prop :=
  ∀ sid ∈ m.held, (∃ dim rest, m.shapes sid = some (dim :: rest)) ∧ ∃ dtype, m.dtypeOf sid = .ok dtype

theorem hold_isOk (hadvertises : m.Advertises) (hsid : sid ∈ m.held) :
    ∃ h', h.hold m sid = .ok h' := by
  obtain ⟨⟨dim, rest, hshape⟩, dtype, hdtype⟩ := hadvertises sid hsid
  unfold Holdings.hold
  split
  · exact ⟨_, rfl⟩
  · rw [lookupKey_eq_ok.mpr hshape, bind_ok, hdtype, bind_ok]
    exact ⟨_, rfl⟩

theorem holdAll_isOk (hadvertises : ∀ m ∈ manifests, m.role = .sender → m.Advertises) :
    ∃ h : Holdings, (byRank manifests).foldlM Holdings.holdAll .init = .ok h := by
  rw [foldlM_holdAll]
  have := foldlM_isOk (P := fun _ _ => True) (l := heldPairs manifests)
    (f := fun (h : Holdings) p => h.hold p.1 p.2) (s := .init) trivial ?_
  · obtain ⟨h, hloop, -⟩ := this
    exact ⟨h, hloop⟩
  · intro done p h hdone _
    have hholds : Holds manifests p.2 p.1 := mem_heldPairs.mp (hdone.subset (by simp))
    obtain ⟨h', hh'⟩ := hold_isOk (h := h) (hadvertises p.1 hholds.mem hholds.sender) hholds.held
    exact ⟨h', hh', trivial⟩

theorem requestedRange_isOk (m : PerRankManifest) (slicing : Bool) (sid : String) (dim : Nat)
    (rest : List Nat) : ∃ range, m.requestedRange slicing sid (dim :: rest) = .ok range := by
  unfold PerRankManifest.requestedRange
  split
  · split
    · exact ⟨_, rfl⟩
    · exact ⟨_, rfl⟩
  · exact ⟨_, rfl⟩

/-- With the dictionaries of senders that advertise what they hold, every need is planned. -/
theorem planNeed_isOk (hof : holdings.Of (heldPairs manifests))
    (hadvertises : ∀ m ∈ manifests, m.role = .sender → m.Advertises) (slicing : Bool)
    (m : PerRankManifest) (acc : List TransferOp × Finset String) (sid : String) :
    ∃ acc', planNeed slicing holdings m acc sid = .ok acc' := by
  unfold planNeed
  split
  · exact ⟨_, rfl⟩
  · rename_i rank howner
    rw [hof.owner] at howner
    obtain ⟨p, hp, -⟩ := Option.map_eq_some_iff.mp howner
    have howner := isOwner_of_firstOf hp
    obtain ⟨shape, hshape, hshape'⟩ := hof.shape sid p hp
    obtain ⟨dtype, -, hdtype⟩ := hof.dtype sid p hp
    obtain ⟨⟨dim, rest, hdims⟩, -⟩ := hadvertises p.1 howner.mem howner.sender sid howner.held
    rw [hdims] at hshape
    cases hshape
    obtain ⟨range, hrange⟩ := requestedRange_isOk m slicing sid dim rest
    rw [lookupKey_eq_ok.mpr hshape', bind_ok, hrange, bind_ok, lookupKey_eq_ok.mpr hdtype, bind_ok]
    exact ⟨_, rfl⟩

/-- No exact replay id is held twice. -/
theorem duplicateExact_eq_nil (hof : holdings.Of (heldPairs manifests)) :
    holdings.duplicateExact = [] ↔
      ∀ sid, isExactReplayId sid → (manifests.flatMap (·.holdings)).count sid ≤ 1 := by
  have hcount : ∀ sid, (holdings.owners sid).length = (manifests.flatMap (·.holdings)).count sid := by
    intro sid
    rw [hof.owners, count_eq_countP,
      ← ((perm_byRank manifests).flatMap_right fun m => m.holdings).countP_eq]
    have hsnd : (byRank manifests).flatMap (·.holdings) = (heldPairs manifests).map Prod.snd := by
      simp [heldPairs, pairsOf, map_flatMap, comp_def]
    rw [hsnd, countP_map]
    rfl
  rw [Holdings.duplicateExact, ← length_eq_zero_iff, length_insertionSort,
    length_eq_zero_iff, filter_eq_nil_iff]
  constructor
  · intro h sid hexact
    by_cases hids : sid ∈ holdings.ids
    · have := h sid hids
      rw [hcount, hexact] at this
      simpa using this
    · have hzero : (holdings.owners sid).length = 0 := by
        rw [hof.owners, countP_eq_zero]
        intro p hp hsid
        exact hids ((hof.ids sid).mpr ⟨p, hp, of_decide_eq_true hsid⟩)
      rw [hcount] at hzero
      omega
  · intro h sid _
    rw [hcount]
    intro hdup
    obtain ⟨hmany, hexact⟩ := Bool.and_eq_true_iff.mp hdup
    have := h sid hexact
    have := of_decide_eq_true hmany
    omega

/-- Senders that advertise what they hold get a plan unless an exact replay id is held twice. -/
theorem computePlan_isOk_iff (hadvertises : ∀ m ∈ manifests, m.role = .sender → m.Advertises) :
    (∃ r, computePlan manifests = .ok r) ↔
      ∀ sid, isExactReplayId sid → (manifests.flatMap (·.holdings)).count sid ≤ 1 := by
  obtain ⟨holdings, hloop⟩ := holdAll_isOk hadvertises
  have hof := holdings_of hloop
  rw [← duplicateExact_eq_nil hof]
  unfold computePlan
  simp only [hloop, bind_ok]
  constructor
  · rintro ⟨r, hr⟩
    split at hr
    · cases hr
    · rename_i hdup
      exact not_not.mp hdup
  · intro hdup
    rw [if_neg (not_not.mpr hdup), foldlM_planNeeds]
    have := foldlM_isOk (P := fun _ _ => True)
      (l := pairsOf PerRankManifest.needs (byRank manifests))
      (f := fun acc p => planNeed (manifests.all (·.supportsTokenRanges)) holdings p.1 acc p.2)
      (s := ([], ∅)) trivial ?_
    · obtain ⟨r, hr, -⟩ := this
      exact ⟨r, hr⟩
    · intro done p acc _ _
      obtain ⟨acc', hacc'⟩ := planNeed_isOk hof hadvertises _ p.1 acc p.2
      exact ⟨acc', hacc', trivial⟩

/-- With one manifest for each rank: the order of the gather does not matter for the plan nor for
the decision to proceed; a plan is computed unless an exact replay id is held twice; it has a transfer
from the owner for each occurrence of a needed id that is held, and what is needed and not held is
missing. -/
theorem computePlan_correct (manifests : List PerRankManifest)
    (hranks : (manifests.map (·.rank)).Nodup) :
    (∀ gathered, gathered.Perm manifests → computePlan gathered = computePlan manifests ∧
      exchangeManifest gathered = exchangeManifest manifests) ∧
    ((∀ m ∈ manifests, m.role = .sender → m.Advertises) → ((∃ r, computePlan manifests = .ok r) ↔
        ∀ sid, isExactReplayId sid → (manifests.flatMap (·.holdings)).count sid ≤ 1)) ∧
    ∀ plan missing, computePlan manifests = .ok (plan, missing) →
      PlanFor manifests plan missing := by
  refine ⟨?_, computePlan_isOk_iff, ?_⟩
  · intro gathered hperm
    exact ⟨computePlan_perm hperm hranks, exchangeManifest_perm hperm hranks⟩
  · intro plan missing h
    exact planFor_computePlan hranks h

/-- A receiver that lists an id twice, and its sender. -/
def repeatedNeed : List PerRankManifest :=
  [{ role := .receiver, rank := 0, needed := ["a", "a"] },
    { role := .sender, rank := 1, held := ["a"], shapes := fun _ => some [4, 2] }]

theorem computePlan_repeatedNeed :
    computePlan repeatedNeed =
      .ok ([⟨1, 0, "a", [4, 2], true, .uint8, none⟩, ⟨1, 0, "a", [4, 2], true, .uint8, none⟩], ∅) := by
  rfl

/-- An id that a receiver lists twice is sent to it twice. -/
theorem computePlan_serves_twice :
    ¬ ∀ manifests : List PerRankManifest, (manifests.map (·.rank)).Nodup →
      ∀ plan missing, computePlan manifests = .ok (plan, missing) →
      ∀ m ∈ manifests, m.role = .receiver → ∀ sid ∈ m.needed, (∃ s, Holds manifests sid s) →
        (plan.map fun op => (op.recvRank, op.sampleId)).count (m.rank, sid) = 1 := by
  intro h
  have := h repeatedNeed (by decide) _ _ computePlan_repeatedNeed
    { role := .receiver, rank := 0, needed := ["a", "a"] } (by simp [repeatedNeed]) rfl "a" (by simp)
    ⟨{ role := .sender, rank := 1, held := ["a"], shapes := fun _ => some [4, 2] },
      by simp [repeatedNeed], rfl, by simp⟩
  revert this
  decide

/-- The plan for a receiver that lists an id twice. -/
theorem computePlan_correct_repeatedNeed :
    PlanFor repeatedNeed
      [⟨1, 0, "a", [4, 2], true, .uint8, none⟩, ⟨1, 0, "a", [4, 2], true, .uint8, none⟩] ∅ :=
  (computePlan_correct repeatedNeed (by decide)).2.2 _ _ computePlan_repeatedNeed

end ArcticPlatform.RouterReplay
