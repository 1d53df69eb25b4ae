import ArcticPlatform.Library.Runs
import ArcticPlatform.RecomputeRouting.Model

/-!
# A recompute routes as its forward did

The captures of a router under a frame are the experts of its calls in the forward of the frame, in
their order, and the position of a router in a recompute is the number of its calls there.
So the calls of a recompute are the first calls of its forward, with the experts of these.

Main results:

- Theorem `routerForward_recompute`: what a call in a recompute uses.
- Theorem `Inv.step`: captures and positions stay in line with the calls.
- Theorem `recompute_same_experts`: the calls of a recompute use the experts of the forward, where no
  running forward is around a recompute.
-/

namespace ArcticPlatform.RecomputeRouting

open Dicts Runs List Function
open Option hiding mem_map

variable {Thread Frame Router : Type} [DecidableEq Frame] [DecidableEq Router]

/-! ## Experts -/

theorem selectExperts_none (fresh : Bool) (own : List Nat) :
    (selectExperts fresh none own).length = own.length ∧
      routerReplayFresh ∉ selectExperts fresh none own := by
  refine ⟨by simp [selectExperts], ?_⟩
  simp only [selectExperts, mem_map, not_exists, not_and]
  intro o _ ho
  have hneg : (o : Int) = -1 := ho
  omega

theorem selectExperts_some {fresh : Bool} {experts : Experts} {own : List Nat}
    (hlength : experts.length = own.length) (hfresh : routerReplayFresh ∉ experts) :
    selectExperts fresh (some experts) own = experts := by
  cases fresh with
  | false => rfl
  | true =>
    simp only [selectExperts, if_true]
    refine ext_getElem (by simp [hlength]) fun i hi hi' => ?_
    have hne : experts[i] ≠ routerReplayFresh := fun h => hfresh (h ▸ getElem_mem hi')
    rw [getElem_zipWith, if_neg hne]

/-- A fresh token takes the gate's own choice, so no token of the selection is fresh. -/
theorem selectExperts_fresh {routed : Experts} {own : List Nat} (hlength : routed.length = own.length) :
    (selectExperts true (some routed) own).length = own.length ∧
      routerReplayFresh ∉ selectExperts true (some routed) own := by
  simp only [selectExperts, if_true]
  refine ⟨by simp [hlength], fun hmem => ?_⟩
  obtain ⟨i, hi, hget⟩ := getElem_of_mem hmem
  rw [getElem_zipWith] at hget
  split at hget
  · have hown : i < own.length := by
      simp only [length_zipWith] at hi
      omega
    have hneg : ((own[i] : Nat) : Int) = -1 := hget
    omega
  · contradiction

/-! ## Contexts -/

variable {contexts : List (Context Frame Router)} {context : Context Frame Router}

omit [DecidableEq Frame] in
theorem recomputeContext_mem (h : recomputeContext contexts = some context) :
    context ∈ contexts ∧ context.recompute = true :=
  ⟨mem_of_find?_eq_some h, by simpa using find?_some h⟩

variable {f : Context Frame Router → Context Frame Router}

omit [DecidableEq Frame] in
theorem mem_updateRecompute (h : context ∈ updateRecompute f contexts) :
    context ∈ contexts ∨ ∃ c, recomputeContext contexts = some c ∧ context = f c := by
  induction contexts with
  | nil => cases h
  | cons c contexts ih =>
    rw [updateRecompute] at h
    split at h
    · rename_i hrecompute
      rcases mem_cons.mp h with hhead | htail
      · exact .inr ⟨c, by simp [recomputeContext, hrecompute], hhead⟩
      · exact .inl (mem_cons_of_mem _ htail)
    · rename_i hforward
      rcases mem_cons.mp h with hhead | htail
      · exact .inl (hhead ▸ mem_cons_self)
      · rcases ih htail with hmem | ⟨d, hd, hcontext⟩
        · exact .inl (mem_cons_of_mem _ hmem)
        · exact .inr ⟨d, by simpa [recomputeContext, hforward] using hd, hcontext⟩

omit [DecidableEq Frame] in
theorem updateRecompute_updateRecompute (f : Context Frame Router → Context Frame Router)
    {g : Context Frame Router → Context Frame Router} (hg : ∀ c, (g c).recompute = c.recompute)
    (contexts : List (Context Frame Router)) :
    updateRecompute f (updateRecompute g contexts) = updateRecompute (f ∘ g) contexts := by
  induction contexts with
  | nil => rfl
  | cons c contexts ih =>
    by_cases hc : c.recompute = true
    · simp [updateRecompute, hc, hg]
    · simp only [updateRecompute, hc, Bool.false_eq_true, if_false, ih]

/-! ## Captures -/

/-- A call whose experts the router keeps: its experts are not all given to a strict router. -/
def captured (fresh : Router → Bool) (call : Call Router) : Bool :=
  !(call.routedExperts.isSome && !fresh call.router)

/-- The kept experts of a router, among the calls of a forward. -/
def keptExperts (fresh : Router → Bool) (router : Router) (calls : List (Call Router)) : List Experts :=
  (calls.filter fun call => decide (call.router = router) && captured fresh call).map Call.experts

/-- The captures of every router are the experts of its calls in the forwards. -/
def InLine (fresh : Router → Bool) (captures : Captures Frame Router)
    (forwards : Frame → Option (List (Call Router))) : Prop :=
  ∀ router frame, ((captures router).get? frame).getD [] =
    keptExperts fresh router ((forwards frame).getD [])

theorem keptExperts_append (fresh : Router → Bool) (router : Router) (calls more : List (Call Router)) :
    keptExperts fresh router (calls ++ more) =
      keptExperts fresh router calls ++ keptExperts fresh router more := by
  simp [keptExperts]

theorem keptExperts_singleton (fresh : Router → Bool) (router : Router) (call : Call Router) :
    keptExperts fresh router [call] =
      if call.router = router ∧ captured fresh call then [call.experts] else [] := by
  simp only [keptExperts, filter_singleton]
  by_cases hrouter : call.router = router <;> cases hc : captured fresh call <;> simp [hrouter]

theorem keptExperts_snoc (fresh : Router → Bool) (router : Router) (calls : List (Call Router))
    (call : Call Router) : keptExperts fresh router (calls ++ [call]) =
      keptExperts fresh router calls ++
        if call.router = router ∧ captured fresh call then [call.experts] else [] := by
  rw [keptExperts_append, keptExperts_singleton]

variable {fresh : Router → Bool} {call : Call Router}

theorem getElem?_keptExperts {made calls : List (Call Router)} (hbefore : made <+: calls)
    (hcall : calls[made.length]? = some call) (hcaptured : captured fresh call) :
    (keptExperts fresh call.router calls)[(keptExperts fresh call.router made).length]? =
      some call.experts := by
  obtain ⟨rest, rfl⟩ := hbefore
  rw [getElem?_append_right le_rfl, Nat.sub_self] at hcall
  cases rest with
  | nil => cases hcall
  | cons c rest =>
    cases hcall
    rw [keptExperts_append, getElem?_append_right le_rfl, Nat.sub_self, ← singleton_append,
      keptExperts_append, keptExperts_singleton]
    simp [hcaptured]

variable {captures : Captures Frame Router} {forwards : Frame → Option (List (Call Router))}

/-- The forwards that are running began in the innermost recompute. -/
def forwardsInside : List (Context Frame Router) → Bool
  | [] => true
  | context :: contexts =>
    if context.recompute then contexts.all (·.recompute) else forwardsInside contexts

omit [DecidableEq Frame] in
theorem forwardsInside_updateRecompute (hf : ∀ c, (f c).recompute = c.recompute)
    (contexts : List (Context Frame Router)) :
    forwardsInside (updateRecompute f contexts) = forwardsInside contexts := by
  induction contexts with
  | nil => rfl
  | cons c contexts ih =>
    by_cases hc : c.recompute = true
    · simp [updateRecompute, forwardsInside, hc, hf]
    · simp only [updateRecompute, forwardsInside, hc, Bool.false_eq_true, if_false, ih]

theorem capture_of_recompute (router : Router) (experts : Experts)
    (h : contexts.all (·.recompute) = true) :
    RecomputeRouting.capture captures router experts contexts = captures := by
  induction contexts with
  | nil => rfl
  | cons context contexts ih =>
    obtain ⟨hhead, htail⟩ := Bool.and_eq_true_iff.mp (all_cons ▸ h)
    have hrest := ih htail
    simp only [RecomputeRouting.capture, foldr_cons, hhead, if_true] at hrest ⊢
    exact hrest

theorem InLine.capture (h : InLine fresh captures forwards) (hcall : captured fresh call)
    (hinside : forwardsInside contexts = true) :
    InLine fresh (capture captures call.router call.experts contexts)
      (noteForward call contexts forwards) := by
  induction contexts with
  | nil => exact h
  | cons context contexts ih =>
    simp only [forwardsInside] at hinside
    by_cases hcontext : context.recompute = true
    · rw [if_pos hcontext] at hinside
      rw [capture_of_recompute _ _ (by rw [all_cons, hcontext, hinside]; rfl), noteForward,
        if_pos hcontext]
      exact h
    · rw [if_neg hcontext] at hinside
      replace ih := ih hinside
      simp only [RecomputeRouting.capture, foldr_cons, noteForward, if_neg hcontext] at ih ⊢
      intro router frame
      have hnow := ih router frame
      by_cases hframe : frame = context.frame
      · subst hframe
        rw [update_self, getD_some, keptExperts_snoc, ← hnow]
        by_cases hrouter : router = call.router
        · subst hrouter
          simp [hcall]
        · simp [update_of_ne hrouter, Ne.symm hrouter]
      · rw [update_of_ne hframe, ← hnow]
        by_cases hrouter : router = call.router
        · subst hrouter
          simp [hframe]
        · rw [update_of_ne hrouter]

theorem InLine.note (h : InLine fresh captures forwards) (hcall : captured fresh call = false)
    (contexts : List (Context Frame Router)) :
    InLine fresh captures (noteForward call contexts forwards) := by
  induction contexts with
  | nil => exact h
  | cons context contexts ih =>
    rw [noteForward]
    split
    · exact h
    · intro router frame
      have hnow := ih router frame
      by_cases hframe : frame = context.frame
      · subst hframe
        rw [update_self, getD_some, keptExperts_snoc, ← hnow]
        simp [hcall]
      · rw [update_of_ne hframe, ← hnow]

theorem noteForward_prefix (call : Call Router) (contexts : List (Context Frame Router))
    (forwards : Frame → Option (List (Call Router))) {frame : Frame} {calls : List (Call Router)}
    (h : forwards frame = some calls) :
    ∃ calls', noteForward call contexts forwards frame = some calls' ∧ calls <+: calls' := by
  induction contexts with
  | nil => exact ⟨calls, h, prefix_rfl⟩
  | cons context contexts ih =>
    obtain ⟨calls', hcalls', hbefore⟩ := ih
    rw [noteForward]
    split
    · exact ⟨calls, h, prefix_rfl⟩
    · by_cases hframe : frame = context.frame
      · subst hframe
        rw [update_self, hcalls', getD_some]
        exact ⟨_, rfl, hbefore.trans (prefix_append _ _)⟩
      · rw [update_of_ne hframe]
        exact ⟨calls', hcalls', hbefore⟩

theorem mem_noteForward {call c : Call Router} {frame : Frame}
    (h : c ∈ (noteForward call contexts forwards frame).getD []) :
    c ∈ (forwards frame).getD [] ∨ c = call := by
  induction contexts with
  | nil => exact .inl h
  | cons context contexts ih =>
    rw [noteForward] at h
    split at h
    · exact .inl h
    · by_cases hframe : frame = context.frame
      · subst hframe
        rw [update_self, getD_some] at h
        rcases mem_append.mp h with hold | hnew
        · exact ih hold
        · exact .inr (mem_singleton.mp hnew)
      · rw [update_of_ne hframe] at h
        exact ih h

/-! ## The invariant -/

/-- What a call notes: a strict router uses the experts that it is given, and kept experts are for
every token. -/
def Call.Sound (fresh : Router → Bool) (call : Call Router) : Prop :=
  if captured fresh call then routerReplayFresh ∉ call.experts ∧ call.experts.length = call.size
  else call.routedExperts = some call.experts

/-- The calls of a recompute are the first ones of its forward, and its positions count them. -/
structure Context.Follows (fresh : Router → Bool) (forwards : Frame → Option (List (Call Router)))
    (context : Context Frame Router) : Prop where
  calls : ∃ calls, forwards context.frame = some calls ∧ context.made <+: calls
  positions : ∀ router, (context.positions.get? router).getD 0 =
    (keptExperts fresh router context.made).length

/-- Captures, positions and calls are in line. -/
structure Inv (fresh : Router → Bool) (s : System Thread Frame Router) : Prop where
  inLine : InLine fresh s.captures s.forwards
  sound : ∀ frame, ∀ call ∈ (s.forwards frame).getD [], call.Sound fresh
  follows : ∀ thread, ∀ context ∈ s.contexts thread, context.recompute = true →
    context.Follows fresh s.forwards

theorem inv_init (fresh : Router → Bool) : Inv fresh (System.init : System Thread Frame Router) where
  inLine := fun _ _ => rfl
  sound := by intro frame call h; cases h
  follows := by intro thread context h; cases h

/-! ## Calls -/

variable {routedExperts : Option Experts} {router : Router}

/-- A call in a recompute takes the captured experts at the position of its router. -/
theorem routerForward_recompute {freshReplayRouting : Bool}
    (hstrict : ¬ (routedExperts.isSome && !freshReplayRouting) = true)
    (hcontext : recomputeContext contexts = some context) {experts : Experts}
    (hget : (((captures router).get? context.frame).getD [])[(context.positions.get? router).getD 0]? =
      some experts) (own again : List Nat) :
    let advanced := updateRecompute (fun c => { c with
      positions := c.positions.set router ((context.positions.get? router).getD 0 + 1) }) contexts
    routerForward freshReplayRouting true router routedExperts own again contexts captures =
      (.ok (selectExperts freshReplayRouting (some experts) own), advanced,
        capture captures router experts advanced) := by
  simp only [routerForward, if_neg hstrict, hcontext, hget, if_true]

variable {s : System Thread Frame Router} {thread : Thread}

theorem repeatsForward_some {size : Nat}
    (h : repeatsForward s thread router routedExperts size = true)
    (hcontext : recomputeContext (s.contexts thread) = some context) :
    ∃ call, ((s.forwards context.frame).getD [])[context.made.length]? = some call ∧
      call.router = router ∧ call.routedExperts = routedExperts ∧ call.size = size := by
  simp only [repeatsForward, hcontext] at h
  split at h
  · cases h
  · rename_i call hcall
    exact ⟨call, hcall, of_decide_eq_true h⟩

/-- The position of a router moves on by one kept call. -/
def advance (fresh : Router → Bool) (call : Call Router) (context : Context Frame Router) :
    Context Frame Router :=
  if captured fresh call then
    let position := (context.positions.get? call.router).getD 0
    { context with positions := context.positions.set call.router (position + 1) }
  else context

section

omit [DecidableEq Frame]

theorem advance_recompute (fresh : Router → Bool) (call : Call Router)
    (context : Context Frame Router) : (advance fresh call context).recompute = context.recompute := by
  unfold advance
  split <;> rfl

theorem updateRecompute_congr {f g : Context Frame Router → Context Frame Router}
    (h : ∀ c, recomputeContext contexts = some c → f c = g c) :
    updateRecompute f contexts = updateRecompute g contexts := by
  induction contexts with
  | nil => rfl
  | cons c contexts ih =>
    by_cases hc : c.recompute = true
    · simp only [updateRecompute, hc, if_true]
      rw [h c (by simp [recomputeContext, hc])]
    · simp only [updateRecompute, hc, Bool.false_eq_true, if_false]
      rw [ih fun d hd => h d (by simpa [recomputeContext, hc] using hd)]

theorem updateRecompute_eq_self (hf : ∀ c, f c = c) (contexts : List (Context Frame Router)) :
    updateRecompute f contexts = contexts := by
  induction contexts with
  | nil => rfl
  | cons c contexts ih => simp [updateRecompute, hf, ih]

theorem updateRecompute_of_none (h : recomputeContext contexts = none) :
    updateRecompute f contexts = contexts := by
  induction contexts with
  | nil => rfl
  | cons c contexts ih =>
    by_cases hc : c.recompute = true
    · simp [recomputeContext, hc] at h
    · simp only [updateRecompute, hc, Bool.false_eq_true, if_false]
      rw [ih (by simpa [recomputeContext, hc] using h)]

end

/-- A call never raises.  It is noted as the forward's call at its place, and captured for the
forwards that are running, where these are in the innermost recompute. -/
theorem Inv.routerForward (h : Inv fresh s) {own again : List Nat}
    (hrepeats : repeatsForward s thread router routedExperts own.length = true)
    (hshapes : shapesAgree routedExperts own again = true) :
    ∃ experts contexts captures,
      routerForward (fresh router) true router routedExperts own again (s.contexts thread) s.captures =
        (.ok experts, contexts, captures) ∧
      (⟨router, routedExperts, own.length, experts⟩ : Call Router).Sound fresh ∧
      ((routedExperts.isSome && !fresh router) = true ∨ forwardsInside (s.contexts thread) = true →
        InLine fresh captures
          (noteForward ⟨router, routedExperts, own.length, experts⟩ contexts s.forwards)) ∧
      (∀ c, recomputeContext (s.contexts thread) = some c →
        ((s.forwards c.frame).getD [])[c.made.length]? =
          some ⟨router, routedExperts, own.length, experts⟩) ∧
      contexts = updateRecompute (advance fresh ⟨router, routedExperts, own.length, experts⟩)
        (s.contexts thread) := by
  obtain ⟨hagain, hrouted⟩ : again.length = own.length ∧
      ∀ routed, routedExperts = some routed → routed.length = own.length := by
    simp only [shapesAgree, Bool.and_eq_true, decide_eq_true_eq] at hshapes
    refine ⟨hshapes.1, ?_⟩
    rintro routed rfl
    simpa using hshapes.2
  by_cases hstrict : (routedExperts.isSome && !fresh router) = true
  · -- a strict router takes the experts that it is given
    obtain ⟨routed, rfl⟩ := isSome_iff_exists.mp (Bool.and_eq_true_iff.mp hstrict).1
    have hfresh : fresh router = false := by simpa using hstrict
    have hnot : ∀ experts, captured fresh (⟨router, some routed, own.length, experts⟩ : Call Router) =
        false := fun experts => by simp [captured, hfresh]
    refine ⟨routed, s.contexts thread, s.captures, ?_, ?_, fun _ => h.inLine.note (hnot _) _, ?_, ?_⟩
    · simp [RecomputeRouting.routerForward, hfresh, selectExperts]
    · simp [Call.Sound, hnot]
    · intro c hc
      obtain ⟨⟨r, ro, n, experts⟩, hcall, rfl, rfl, rfl⟩ := repeatsForward_some hrepeats hc
      have hsound := h.sound c.frame _ (mem_of_getElem? hcall)
      rw [Call.Sound, hnot] at hsound
      simp only [Bool.false_eq_true, if_false, some.injEq] at hsound
      rw [hcall, hsound]
    · rw [updateRecompute_eq_self]
      intro c
      rw [advance, hnot]
      rfl
  · -- the experts of the call are kept
    have hkept : ∀ experts, captured fresh (⟨router, routedExperts, own.length, experts⟩ : Call Router) =
        true := fun experts => by
      rw [captured, Bool.not_eq_true', Bool.eq_false_iff]
      exact hstrict
    cases hcontext : recomputeContext (s.contexts thread) with
    | some c =>
      obtain ⟨⟨r, ro, n, experts⟩, hcall, rfl, rfl, rfl⟩ := repeatsForward_some hrepeats hcontext
      obtain ⟨hmem, hrecompute⟩ := recomputeContext_mem hcontext
      have hfollows := h.follows thread c hmem hrecompute
      obtain ⟨calls, hcalls, hbefore⟩ := hfollows.calls
      rw [hcalls, getD_some] at hcall
      have hsound := h.sound c.frame _ (by rw [hcalls]; exact mem_of_getElem? hcall)
      rw [Call.Sound, if_pos (hkept experts)] at hsound
      have hget : (((s.captures r).get? c.frame).getD [])[(c.positions.get? r).getD 0]? =
          some experts := by
        rw [h.inLine, hfollows.positions, hcalls]
        exact getElem?_keptExperts hbefore hcall (hkept experts)
      have hselect : selectExperts (fresh r) (some experts) own = experts :=
        selectExperts_some hsound.2 hsound.1
      have hadvance : updateRecompute (fun d => { d with
            positions := d.positions.set r ((c.positions.get? r).getD 0 + 1) }) (s.contexts thread) =
          updateRecompute (advance fresh ⟨r, ro, own.length, experts⟩) (s.contexts thread) := by
        refine updateRecompute_congr fun d hd => ?_
        obtain rfl : c = d := some.inj (hcontext.symm.trans hd)
        rw [advance, if_pos (hkept experts)]
      refine ⟨experts, _, _, ?_, ?_, fun hok => h.inLine.capture (hkept experts) ?_, ?_, rfl⟩
      · rw [routerForward_recompute hstrict hcontext hget, hselect, hadvance]
      · rw [Call.Sound, if_pos (hkept experts)]
        exact hsound
      · rw [forwardsInside_updateRecompute (advance_recompute fresh _)]
        exact hok.resolve_left hstrict
      · intro d hd
        obtain rfl : c = d := some.inj hd
        rw [hcalls, getD_some, hcall]
    | none =>
      have hfirst : ∀ call, s.contexts thread =
          updateRecompute (advance fresh call) (s.contexts thread) :=
        fun call => (updateRecompute_of_none hcontext).symm
      cases routedExperts with
      | some routed =>
        have hfresh : fresh router = true := by simpa using hstrict
        have hselect := selectExperts_fresh (hrouted routed rfl)
        rw [← hfresh] at hselect
        refine ⟨selectExperts (fresh router) (some routed) own, _, _, ?_, ?_,
          fun hok => h.inLine.capture (hkept _) (hok.resolve_left hstrict), fun c hc => ?_, hfirst _⟩
        · simp only [RecomputeRouting.routerForward, if_neg hstrict, hcontext, if_true]
        · rw [Call.Sound, if_pos (hkept _)]
          exact ⟨hselect.2, hselect.1⟩
        · cases hc
      | none =>
        have hselect := selectExperts_none (fresh router) own
        have hagainSelect : selectExperts (fresh router)
            (some (selectExperts (fresh router) none own)) again =
              selectExperts (fresh router) none own :=
          selectExperts_some (hselect.1.trans hagain.symm) hselect.2
        refine ⟨selectExperts (fresh router) none own, _, _, ?_, ?_,
          fun hok => h.inLine.capture (hkept _) (hok.resolve_left hstrict), fun c hc => ?_, hfirst _⟩
        · simp only [RecomputeRouting.routerForward, if_neg hstrict, hcontext, if_true, hagainSelect]
        · rw [Call.Sound, if_pos (hkept _)]
          exact ⟨hselect.2, hselect.1⟩
        · cases hc

/-! ## Steps -/

omit [DecidableEq Frame] in
theorem Context.Follows.mono
    {forwards forwards' : Frame → Option (List (Call Router))} (h : context.Follows fresh forwards)
    (hmore : ∀ calls, forwards context.frame = some calls →
      ∃ calls', forwards' context.frame = some calls' ∧ calls <+: calls') :
    context.Follows fresh forwards' := by
  obtain ⟨calls, hcalls, hbefore⟩ := h.calls
  obtain ⟨calls', hcalls', hle⟩ := hmore calls hcalls
  exact ⟨⟨calls', hcalls', hbefore.trans hle⟩, h.positions⟩

omit [DecidableEq Frame] in
theorem Context.Follows.note (h : context.Follows fresh forwards)
    (hcall : ((forwards context.frame).getD [])[context.made.length]? = some call) :
    ({ advance fresh call context with made := context.made ++ [call] } :
      Context Frame Router).Follows fresh forwards := by
  obtain ⟨calls, hcalls, hbefore⟩ := h.calls
  have hframe : (advance fresh call context).frame = context.frame := by
    unfold advance
    split <;> rfl
  refine ⟨⟨calls, by simp only [hframe]; exact hcalls, ?_⟩, fun router => ?_⟩
  · rw [hcalls, getD_some] at hcall
    obtain ⟨rest, rfl⟩ := hbefore
    rw [getElem?_append_right le_rfl, Nat.sub_self] at hcall
    cases rest with
    | nil => cases hcall
    | cons c rest =>
      cases hcall
      exact ⟨rest, by simp⟩
  · simp only [keptExperts_snoc, length_append]
    cases hcaptured : captured fresh call with
    | false => simp [advance, hcaptured, h.positions]
    | true =>
      simp only [advance, hcaptured, if_true, Dict.get?_set]
      by_cases hrouter : router = call.router
      · subst hrouter
        simp [h.positions]
      · simp [hrouter, Ne.symm hrouter, h.positions]

variable [DecidableEq Thread]

theorem follows_update (h : Inv fresh s) (hmore : ∀ frame calls, s.forwards frame = some calls →
      ∃ calls', forwards frame = some calls' ∧ calls <+: calls')
    (hcontexts : ∀ context ∈ contexts, context.recompute = true → context.Follows fresh forwards)
    (thread' : Thread) (context : Context Frame Router)
    (hmem : context ∈ Function.update s.contexts thread contexts thread')
    (hrecompute : context.recompute = true) : context.Follows fresh forwards := by
  by_cases hthread : thread' = thread
  · subst hthread
    rw [update_self] at hmem
    exact hcontexts context hmem hrecompute
  · rw [update_of_ne hthread] at hmem
    exact (h.follows thread' context hmem hrecompute).mono fun calls => hmore context.frame calls

/-- A router whose experts are kept is not called in a recompute that a running forward of the thread
is around. -/
def Guarded (fresh : Router → Bool) (s : System Thread Frame Router) :
    Event Thread Frame Router → Prop
  | .call thread router routedExperts _ _ =>
    (routedExperts.isSome && !fresh router) = true ∨ forwardsInside (s.contexts thread) = true
  | _ => True

instance (s : System Thread Frame Router) (e : Event Thread Frame Router) :
    Decidable (Guarded fresh s e) :=
  match e with
  | .call _ _ _ _ _ => inferInstanceAs (Decidable (_ ∨ _))
  | .enterForward _ _ | .enterRecompute _ _ | .exit _ => inferInstanceAs (Decidable True)

/-- No call raises, and every guarded step keeps captures and positions in line. -/
theorem Inv.step {s s' : System Thread Frame Router} {e : Event Thread Frame Router}
    {result : Except Error (Option Experts)} (h : Inv fresh s)
    (hstep : s.step fresh e = some (s', result)) :
    (Guarded fresh s e → Inv fresh s') ∧ result.isOk := by
  have hsame : ∀ frame calls, s.forwards frame = some calls →
      ∃ calls', s.forwards frame = some calls' ∧ calls <+: calls' :=
    fun frame calls hcalls => ⟨calls, hcalls, prefix_rfl⟩
  cases e with
  | enterForward thread frame =>
    simp only [System.step] at hstep
    split at hstep
    · cases hstep
    · rename_i hnew
      cases hstep
      have hmore : ∀ frame' calls, s.forwards frame' = some calls →
          ∃ calls', Function.update s.forwards frame (some []) frame' = some calls' ∧
            calls <+: calls' := by
        intro frame' calls hcalls
        have hne : frame' ≠ frame := by
          rintro rfl
          rw [hnew] at hcalls
          cases hcalls
        exact ⟨calls, by rw [update_of_ne hne, hcalls], prefix_rfl⟩
      have hgetD : ∀ frame', (Function.update s.forwards frame (some []) frame').getD [] =
          (s.forwards frame').getD [] := by
        intro frame'
        by_cases hframe : frame' = frame
        · rw [hframe, update_self, hnew]
          rfl
        · rw [update_of_ne hframe]
      refine ⟨fun _ => ⟨fun router frame' => ?_, fun frame' => ?_, follows_update h hmore ?_⟩, rfl⟩
      · rw [hgetD]
        exact h.inLine router frame'
      · rw [hgetD]
        exact h.sound frame'
      · intro context hmem hrecompute
        rcases mem_cons.mp hmem with rfl | hold
        · cases hrecompute
        · exact (h.follows thread context hold hrecompute).mono fun calls => hmore context.frame calls
  | enterRecompute thread frame =>
    simp only [System.step] at hstep
    split at hstep
    · rename_i hcan
      cases hstep
      obtain ⟨calls, hcalls⟩ := isSome_iff_exists.mp hcan
      refine ⟨fun _ => ⟨h.inLine, h.sound, follows_update h hsame ?_⟩, rfl⟩
      intro context hmem hrecompute
      rcases mem_cons.mp hmem with rfl | hold
      · exact ⟨⟨calls, hcalls, nil_prefix⟩, fun router => rfl⟩
      · exact h.follows thread context hold hrecompute
    · cases hstep
  | exit thread =>
    simp only [System.step] at hstep
    split at hstep
    · cases hstep
    · rename_i inner contexts hcontexts
      cases hstep
      refine ⟨fun _ => ⟨h.inLine, h.sound, follows_update h hsame ?_⟩, rfl⟩
      intro context hmem hrecompute
      exact h.follows thread context (hcontexts ▸ mem_cons_of_mem _ hmem) hrecompute
  | call thread router routedExperts own again =>
    simp only [System.step] at hstep
    split at hstep
    · rename_i hcan
      obtain ⟨hrepeats, hshapes⟩ := Bool.and_eq_true_iff.mp hcan
      obtain ⟨experts, contexts, captures, hforward, hsound, hinLine, hcall, hcontexts⟩ :=
        h.routerForward hrepeats hshapes
      rw [hforward] at hstep
      cases hstep
      have hmore : ∀ frame calls, s.forwards frame = some calls →
          ∃ calls', noteForward ⟨router, routedExperts, own.length, experts⟩ contexts s.forwards frame =
            some calls' ∧ calls <+: calls' := fun frame calls => noteForward_prefix _ _ _
      refine ⟨fun hok => ⟨hinLine hok, fun frame c hc => ?_, follows_update h hmore ?_⟩, rfl⟩
      · rcases mem_noteForward hc with hold | rfl
        · exact h.sound frame c hold
        · exact hsound
      · intro context hmem hrecompute
        rw [noteRecompute, hcontexts, updateRecompute_updateRecompute _ (advance_recompute fresh _)] at hmem
        rcases mem_updateRecompute hmem with hold | ⟨c, hc, rfl⟩
        · exact (h.follows thread context hold hrecompute).mono fun calls => hmore context.frame calls
        · obtain ⟨hcmem, hcrecompute⟩ := recomputeContext_mem hc
          have hfollows := (h.follows thread c hcmem hcrecompute).note (hcall c hc)
          have hmade : (advance fresh ⟨router, routedExperts, own.length, experts⟩ c).made = c.made := by
            unfold advance
            split <;> rfl
          rw [← hmade] at hfollows
          exact hfollows.mono fun calls => hmore _ calls
    · cases hstep

/-! ## Runs -/

/-- The next state of an event. -/
def next (fresh : Router → Bool) (s : System Thread Frame Router) (e : Event Thread Frame Router) :
    Option (System Thread Frame Router) := (s.step fresh e).map Prod.fst

/-- The calls of one router. -/
def callsOf (router : Router) (calls : List (Call Router)) : List (Call Router) :=
  calls.filter fun call => decide (call.router = router)

/-- The calls of a router in a recompute use the experts of its calls in the forward of the frame, one
after the other. -/
def SameExperts (s : System Thread Frame Router) : Prop :=
  ∀ thread, ∀ context ∈ s.contexts thread, context.recompute = true →
    ∃ calls, s.forwards context.frame = some calls ∧
      ∀ (router : Router) (j : Nat) (call : Call Router), (callsOf router context.made)[j]? = some call →
        ∃ original : Call Router, (callsOf router calls)[j]? = some original ∧
          call.experts = original.experts ∧ ∀ numExperts,
            numTokensPerExpert numExperts call.experts =
              numTokensPerExpert numExperts original.experts

/-- In every run of guarded steps, the calls of every recompute use the experts of its forward, and no
call raises. -/
theorem recompute_same_experts (fresh : Router → Bool) {s : System Thread Frame Router}
    (h : Reaches (next fresh) (Guarded fresh) .init s) :
    SameExperts s ∧ ∀ e s' result, s.step fresh e = some (s', result) → result.isOk := by
  have hinv : Inv fresh s := by
    refine h.invariant (inv_init fresh) fun t e t' ht hok hnext => ?_
    obtain ⟨⟨t'', result⟩, hstep, rfl⟩ := map_eq_some_iff.mp hnext
    exact (ht.step hstep).1 hok
  refine ⟨fun thread context hmem hrecompute => ?_, fun e s' result hstep => (hinv.step hstep).2⟩
  obtain ⟨calls, hcalls, hbefore⟩ := (hinv.follows thread context hmem hrecompute).calls
  refine ⟨calls, hcalls, fun router j call hcall => ⟨call, ?_, rfl, fun _ => rfl⟩⟩
  obtain ⟨rest, hrest⟩ : callsOf router context.made <+: callsOf router calls := hbefore.filter _
  rw [← hrest, getElem?_append_left (List.getElem?_eq_some_iff.mp hcall).1, hcall]

/-- A forward with an inner one, and a recompute with an inner forward that is recomputed behind it,
where the gate would choose other experts. -/
def repeated : List (Event Nat Nat Nat) :=
  [.enterForward 0 7, .call 0 1 none [4, 2] [2, 4], .enterForward 0 8, .call 0 1 none [3, 1] [3, 1],
    .exit 0, .exit 0, .enterRecompute 0 7, .call 0 1 none [3, 5] [5, 3], .enterForward 0 9,
    .call 0 1 none [6, 0] [6, 0], .exit 0, .exit 0, .enterRecompute 0 9, .call 0 1 none [5, 2] [5, 2]]

/-- The state after it. -/
def afterRepeated : System Nat Nat Nat :=
  repeated.foldl (fun s e => (next (fun _ => false) s e).getD s) .init

/-- The recompute of the inner forward uses the experts of the first one. -/
theorem recompute_same_experts_repeated :
    (∃ calls, afterRepeated.forwards 9 = some calls ∧
      ∃ original : Call Nat, (callsOf 1 calls)[0]? = some original ∧ [3, 1] = original.experts) ∧
    ∀ e s' result, afterRepeated.step (fun _ => false) e = some (s', result) → result.isOk := by
  have hreaches : Reaches (next fun _ => false) (Guarded fun _ => false) .init afterRepeated :=
    reaches_of_execute repeated rfl
  obtain ⟨hsame, hok⟩ := recompute_same_experts (fun _ => false) hreaches
  refine ⟨?_, hok⟩
  obtain ⟨calls, hcalls, hexperts⟩ := hsame 0 _ mem_cons_self rfl
  obtain ⟨original, horiginal, hexperts, -⟩ := hexperts 1 0 _ rfl
  exact ⟨calls, hcalls, original, horiginal, hexperts⟩

/-- A forward that takes gradients of an inner region, which recomputes it, and a recompute that does
the same. -/
def gradInside : List (Event Nat Nat Nat) :=
  [.enterForward 0 7, .call 0 1 none [1] [1], .enterForward 0 8, .call 0 1 none [2] [2], .exit 0,
    .enterRecompute 0 8, .call 0 1 none [2] [2], .exit 0, .call 0 1 none [4] [4], .exit 0,
    .enterRecompute 0 7, .call 0 1 none [1] [1], .enterForward 0 9, .call 0 1 none [2] [2], .exit 0,
    .enterRecompute 0 9, .call 0 1 none [2] [2], .exit 0, .call 0 1 none [4] [4]]

/-- The state after it. -/
def afterGradInside : System Nat Nat Nat :=
  gradInside.foldl (fun s e => (next (fun _ => false) s e).getD s) .init

/-- The last call of the recompute uses the experts of the inner region. -/
theorem recompute_other_experts :
    Reaches (next fun _ => false) Always .init afterGradInside ∧ ¬SameExperts afterGradInside := by
  refine ⟨reaches_of_execute gradInside rfl, fun hsame => ?_⟩
  obtain ⟨calls, hcalls, hexperts⟩ := hsame 0 _ mem_cons_self rfl
  cases hcalls
  obtain ⟨original, horiginal, hexperts, -⟩ := hexperts 1 2 _ rfl
  cases horiginal
  exact absurd hexperts (by decide)

end ArcticPlatform.RecomputeRouting
