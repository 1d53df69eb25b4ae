import ArcticPlatform.SuffixCache.Runs
import ArcticPlatform.SuffixTree.Correctness

/-!
# Suffix decoding cache: calls that raise

The calls of `SuffixDecodingCache` with their tokens as Python passes them.  The
binding converts them to 32-bit integers before a tree sees them, and a tree throws at
two of these, which its child maps reserve.  What was done up to then is not undone.

The tree keeps a token that it refuses at the end of its sequence, where no label
reaches it; the model has a stand-in there.

Main results:

- Theorem `extendTokens_eq`, `extendTokens_refused`: when extending throws.
- Theorem `run_sound`: the cache after calls that fit.
- Theorem `raises_unchanged_iff`: which calls leave the cache as it was if they raise.
-/

namespace ArcticPlatform.SuffixCache

open Dicts List Option
open SuffixTree (Key Layout ValidKey matchCount)

/-! ## Tokens -/

/-- The values of an `int32_t`. -/
abbrev Int32Value := { t : Int // -2147483648 ≤ t ∧ t ≤ 2147483647 }

/-- An element of a Python sequence. -/
inductive PyToken where
  | int (value : Int)
  | other

/-- The conversion of an element to `int32_t`. -/
def PyToken.toInt32 : PyToken → Option Int32Value
  | .int value =>
    if h : -2147483648 ≤ value ∧ value ≤ 2147483647 then some ⟨value, h⟩ else none
  | .other => none

/-- The tokens of a call.  `imported` tells whether the binding takes an array: it refuses some
that pass the checks of the class, such as those that are read-only. -/
inductive RawTokenIds where
  | sequence (tokens : List PyToken)
  | ndarray (ndim : Nat) (dtype : ArrayDtype) (contiguous imported : Bool)
      (tokens : List Int32Value)

/-- `_validate_ndarray`, for arguments that are arrays. -/
def RawTokenIds.validate {κ : Type} : RawTokenIds → Except (Error κ) Unit
  | .sequence _ => .ok ()
  | .ndarray ndim dtype contiguous _ _ =>
    (TokenIds.ndarray ndim dtype contiguous []).validate.map fun _ => ()

/-- What `extend` or `extend_ndarray` gets; `none` is the `TypeError` of the binding. -/
def RawTokenIds.convert : RawTokenIds → Option (List Int32Value)
  | .sequence tokens => tokens.mapM PyToken.toInt32
  | .ndarray _ _ _ imported tokens => if imported then some tokens else none

/-- The exceptions of a call with raw tokens. -/
inductive RawError (κ : Type) where
  | cache (e : Error κ)
  | typeError
  | invalidKey

/-- The entry for a token in the sequence of a tree: a reserved token has a stand-in. -/
def storedKey (t : Int32Value) : Key :=
  if h : ValidKey t.1 then ⟨t.1, h⟩ else default

/-! ## Trees -/

/-- `SuffixTree::append`, and whether it threw: the loop over the active nodes starts by looking
the token up. -/
def appendToken (st : SuffixTree.State) (seqId : Key) (t : Int32Value) :
    SuffixTree.State × Bool :=
  if ValidKey t.1 then (SuffixTree.append st seqId (storedKey t), false)
  else
    let (st, active) := SuffixTree.appendOpen st seqId (storedKey t)
    ({ st with activeNodes := st.activeNodes.insert seqId active }, !active.isEmpty)

/-- `SuffixTree::extend`, and whether it threw. -/
def extendTokens (st : SuffixTree.State) (seqId : Key) :
    List Int32Value → SuffixTree.State × Bool
  | [] => (st, false)
  | t :: rest =>
    let (st, threw) := appendToken st seqId t
    if threw then (st, true) else extendTokens st seqId rest

/-- A tree of this depth throws at one of the tokens. -/
def Refused (depth : Nat) (tokens : List Int32Value) : Prop :=
  1 ≤ depth ∧ ∃ t ∈ tokens, ¬ValidKey t.1

/-- A tree of the cache: without depth it has no active nodes, and otherwise it is the tree of its
sequences. -/
structure TreeOk (depth : Nat) (st : SuffixTree.State) : Prop where
  maxDepth : st.maxDepth = depth
  flat : depth = 0 → ∀ s, st.active s = []
  good : 1 ≤ depth → ∃ F P, SuffixTree.Good st F P

namespace TreeOk

variable {depth : Nat} {st : SuffixTree.State} {seqId : Key}

theorem init (depth : Nat) : TreeOk depth (SuffixTree.init depth) :=
  ⟨rfl, fun _ _ => rfl, fun _ => SuffixTree.init_good depth⟩

theorem appendOpen_nil (h : TreeOk 0 st) (seqId token : Key) :
    (SuffixTree.appendOpen st seqId token).2 = [] := by
  have hactive : (st.activeNodes.lookup seqId).getD [] = [] := h.flat rfl seqId
  have hdepth : st.maxDepth = 0 := h.maxDepth
  simp [SuffixTree.appendOpen, hactive, SuffixTree.State.setNode, hdepth]

section

variable (h : TreeOk depth st)
include h

theorem appendOpen_ne_nil (hdepth : 1 ≤ depth) (seqId token : Key) :
    (SuffixTree.appendOpen st seqId token).2 ≠ [] := by
  simp only [SuffixTree.appendOpen, SuffixTree.State.setNode, h.maxDepth, ne_eq]
  split_ifs with hlong
  · intro hnil
    have hlen := congrArg List.length hnil
    rw [length_tail, length_nil] at hlen
    omega
  · simp

theorem append (seqId token : Key) : TreeOk depth (SuffixTree.append st seqId token) := by
  refine ⟨(SuffixTree.appendLoop_sameStore seqId token _ _ _).maxDepth.trans h.maxDepth, ?_, ?_⟩
  · rintro rfl s
    have hopen := h.appendOpen_nil seqId token
    have hlook : (SuffixTree.append st seqId token).activeNodes =
        st.activeNodes.insert seqId [] := by
      simp only [SuffixTree.append, hopen, SuffixTree.appendLoop]
      rfl
    rw [SuffixTree.State.active, hlook]
    by_cases hs : s = seqId
    · rw [hs, AList.lookup_insert]
      rfl
    · rw [AList.lookup_insert_ne hs]
      exact h.flat rfl s
  · intro hdepth
    obtain ⟨F, P, hgood⟩ := h.good hdepth
    exact (SuffixTree.append_good hgood (h.maxDepth.symm ▸ hdepth) seqId token).2.2

theorem extend (seqId : Key) (tokens : List Key) :
    TreeOk depth (SuffixTree.extend st seqId tokens) := by
  induction tokens generalizing st with
  | nil => exact h
  | cons token rest ih => exact ih (h.append seqId token)

theorem remove (layout : Layout) (seqId : Key) :
    TreeOk depth (SuffixTree.remove layout st seqId) := by
  refine ⟨(SuffixTree.remove_maxDepth layout st seqId).trans h.maxDepth, ?_, ?_⟩
  · intro hdepth s
    rw [SuffixTree.State.active, SuffixTree.remove_activeNodes]
    by_cases hs : s = seqId
    · rw [hs, AList.lookup_erase]
      rfl
    · rw [AList.lookup_erase_ne hs]
      exact h.flat hdepth s
  · intro hdepth
    obtain ⟨F, P, hgood⟩ := h.good hdepth
    exact (SuffixTree.remove_good hgood (h.maxDepth.symm ▸ hdepth) seqId layout).2.2

theorem appendToken_eq {t : Int32Value} (ht : ¬Refused depth [t]) :
    appendToken st seqId t = (SuffixTree.append st seqId (storedKey t), false) := by
  rw [appendToken]
  split_ifs with hvalid
  · rfl
  · have hzero : depth = 0 := by
      by_contra hne
      exact ht ⟨Nat.one_le_iff_ne_zero.mpr hne, t, mem_singleton_self t, hvalid⟩
    subst hzero
    have hopen := h.appendOpen_nil seqId (storedKey t)
    simp only [hopen, SuffixTree.append, SuffixTree.appendLoop, isEmpty_nil, Bool.not_true]

/-- Extending by tokens that the tree takes is that of the model. -/
theorem extendTokens_eq {tokens : List Int32Value} (htokens : ¬Refused depth tokens) :
    extendTokens st seqId tokens = (SuffixTree.extend st seqId (tokens.map storedKey), false) := by
  induction tokens generalizing st with
  | nil => rfl
  | cons t rest ih =>
    have hhead : ¬Refused depth [t] := by
      rintro ⟨hdepth, u, hu, hvalid⟩
      exact htokens ⟨hdepth, u, mem_cons.mpr (.inl (mem_singleton.mp hu)), hvalid⟩
    have hrest : ¬Refused depth rest := by
      rintro ⟨hdepth, u, hu, hvalid⟩
      exact htokens ⟨hdepth, u, mem_cons_of_mem t hu, hvalid⟩
    rw [extendTokens, h.appendToken_eq hhead]
    exact ih (h.append seqId (storedKey t)) hrest

end

end TreeOk

/-! ## What a tree throws at -/

/-- The number of suffixes in the tree, which the root counts. -/
def suffixCount (st : SuffixTree.State) : Int := (st.node st.root).count

theorem matchCount_nil (st : SuffixTree.State) : matchCount st [] = some (suffixCount st) := rfl

theorem suffixCount_append_le {st : SuffixTree.State} {F : SuffixTree.Suffixes}
    {P : SuffixTree.Paths} (h : SuffixTree.Good st F P) (hdepth : 1 ≤ st.maxDepth)
    (seqId token : Key) :
    suffixCount st ≤ suffixCount (SuffixTree.append st seqId token) := by
  obtain ⟨-, hseqs, F', P', hgood⟩ := SuffixTree.append_good h hdepth seqId token
  have hsub : F.keys ⊆ F'.keys := by
    intro k hk
    rw [hgood.keys]
    have hlt := (h.keys k).mp hk
    by_cases hs : k.1 = seqId
    · rw [hs] at hlt ⊢
      simp only [SuffixTree.State.seq, hseqs, AList.lookup_insert, getD_some, length_append]
      exact Nat.lt_add_right _ hlt
    · simpa only [SuffixTree.State.seq, hseqs, AList.lookup_insert_ne hs] using hlt
  have hcount := h.inv.matchCount_eq []
  have hcount' := hgood.inv.matchCount_eq []
  rw [if_pos (.inl rfl), StringFamily.Family.cnt_nil, matchCount_nil, some.injEq]
    at hcount hcount'
  rw [hcount, hcount']
  exact_mod_cast Finset.card_le_card hsub

/-- A tree that throws has counted the suffix of the token that it refused. -/
theorem extendTokens_refused {depth : Nat} {st : SuffixTree.State} (h : TreeOk depth st)
    (seqId : Key) {tokens : List Int32Value} (htokens : Refused depth tokens) :
    ∃ st', extendTokens st seqId tokens = (st', true) ∧ suffixCount st < suffixCount st' := by
  obtain ⟨hdepth, hrefused⟩ := htokens
  induction tokens generalizing st with
  | nil => simp at hrefused
  | cons t rest ih =>
    by_cases hvalid : ValidKey t.1
    · have hrest : ∃ u ∈ rest, ¬ValidKey u.1 := by
        obtain ⟨u, hu, hnot⟩ := hrefused
        refine ⟨u, (mem_cons.mp hu).resolve_left ?_, hnot⟩
        rintro rfl
        exact hnot hvalid
      obtain ⟨F, P, hgood⟩ := h.good hdepth
      obtain ⟨st', hextend, hlt⟩ := ih (h.append seqId (storedKey t)) hrest
      refine ⟨st', ?_, lt_of_le_of_lt
        (suffixCount_append_le hgood (h.maxDepth.symm ▸ hdepth) seqId (storedKey t)) hlt⟩
      rw [extendTokens, appendToken, if_pos hvalid]
      exact hextend
    · have hopen := h.appendOpen_ne_nil hdepth seqId (storedKey t)
      have hthrew : (!(SuffixTree.appendOpen st seqId (storedKey t)).2.isEmpty) = true := by
        simpa using hopen
      refine ⟨(appendToken st seqId t).1, ?_, ?_⟩
      · rw [extendTokens, appendToken, if_neg hvalid]
        simp only [hthrew, if_true]
      · rw [appendToken, if_neg hvalid]
        simp [suffixCount, SuffixTree.appendOpen, SuffixTree.State.setNode]

/-! ## Calls -/

/-- What a call that ends leaves: the exception it raised, if any, and the cache. -/
abbrev RawOutcome (κ : Type) := Except (RawError κ) Unit × SuffixDecodingCache κ

/-- The calls that change a cache, with their tokens as Python passes them. -/
inductive RawCall (κ : Type) where
  | startRequest (reqId : κ) (promptTokenIds : RawTokenIds) (layouts : SeqId → Layout)
  | stopRequest (reqId : κ)
  | addActiveResponse (reqId : κ) (tokenIds : RawTokenIds)
  | evictCachedResponse (reqId : κ) (layouts : SeqId → Layout)

namespace SuffixDecodingCache

variable {κ : Type} [DecidableEq κ]

/-- An outcome without tokens. -/
def raw (o : Outcome κ) : RawOutcome κ := (o.1.mapError .cache, o.2)

/-- `start_request`, whose request is active before its prompt is converted. -/
def startRequestRaw (layouts : SeqId → Layout) (fuel : Nat) (c : SuffixDecodingCache κ) (reqId : κ)
    (promptTokenIds : RawTokenIds) : Option (RawOutcome κ) :=
  if (c.localTrees.get? reqId).isSome then some (.error (.cache (.alreadyActive reqId)), c)
  else match promptTokenIds.validate with
    | .error e => some (.error (.cache e), c)
    | .ok _ =>
      let tree := SuffixTree.init c.maxTreeDepth
      let c := { c with localTrees := c.localTrees.set reqId tree }
      match promptTokenIds.convert with
      | none => some (.error .typeError, c)
      | some tokens =>
        let (tree, threw) := extendTokens tree (SeqId.key 0) tokens
        let c := { c with localTrees := c.localTrees.set reqId tree }
        if threw then some (.error .invalidKey, c)
        else (openSlot layouts fuel c reqId).map raw

/-- `add_active_response`. -/
def addActiveResponseRaw (c : SuffixDecodingCache κ) (reqId : κ) (tokenIds : RawTokenIds) :
    RawOutcome κ :=
  match c.localTrees.get? reqId with
  | none => (.error (.cache (.notActive reqId)), c)
  | some tree =>
    match tokenIds.validate with
    | .error e => (.error (.cache e), c)
    | .ok _ =>
      match tokenIds.convert with
      | none => (.error .typeError, c)
      | some tokens =>
        let (tree, threw) := extendTokens tree (SeqId.key 0) tokens
        let c := { c with localTrees := c.localTrees.set reqId tree }
        if threw then (.error .invalidKey, c)
        else match c.reqToSeqId.get? reqId with
          | none => (.ok (), c)
          | some seqId =>
            let (tree, threw) := extendTokens c.globalTree seqId.key tokens
            (if threw then .error .invalidKey else .ok (), { c with globalTree := tree })

/-- One call. -/
def stepRaw (fuel : Nat) (c : SuffixDecodingCache κ) : RawCall κ → Option (RawOutcome κ)
  | .startRequest reqId promptTokenIds layouts =>
    c.startRequestRaw layouts fuel reqId promptTokenIds
  | .stopRequest reqId => some (raw (c.stopRequest reqId))
  | .addActiveResponse reqId tokenIds => some (c.addActiveResponseRaw reqId tokenIds)
  | .evictCachedResponse reqId layouts => some (raw (c.evictCachedResponse layouts reqId))

/-- The cache after calls, whose exceptions the caller survives. -/
def runRaw (fuel : Nat) (c : SuffixDecodingCache κ) (calls : List (RawCall κ)) :
    Option (SuffixDecodingCache κ) :=
  calls.foldlM (fun c call => (c.stepRaw fuel call).map Prod.snd) c

/-- A call that does not get as far as a token that cannot be converted or stored: a start of a
request that is not active converts its prompt and extends a tree by it, and an addition to an
active request extends a tree by the tokens that were converted. -/
def Fits (c : SuffixDecodingCache κ) : RawCall κ → Prop
  | .startRequest reqId promptTokenIds _ =>
    c.localTrees.get? reqId = none → (promptTokenIds.validate : Except (Error κ) Unit) = .ok () →
        ∃ tokens, promptTokenIds.convert = some tokens ∧ ¬Refused c.maxTreeDepth tokens
  | .addActiveResponse reqId tokenIds =>
    (c.localTrees.get? reqId).isSome → (tokenIds.validate : Except (Error κ) Unit) = .ok () →
      ∀ tokens, tokenIds.convert = some tokens → ¬Refused c.maxTreeDepth tokens
  | .stopRequest _ => True
  | .evictCachedResponse _ _ => True

/-- The same requests, and the same matches and counts of every tree. -/
structure Unchanged (c c' : SuffixDecodingCache κ) : Prop where
  activeRequests : c'.activeRequests = c.activeRequests
  cachedRequests : c'.cachedRequests = c.cachedRequests
  globalTree : ∀ w, matchCount c'.globalTree w = matchCount c.globalTree w
  localTrees : ∀ reqId w, (c'.localTrees.get? reqId).map (matchCount · w) =
    (c.localTrees.get? reqId).map (matchCount · w)

theorem Unchanged.refl (c : SuffixDecodingCache κ) : Unchanged c c :=
  ⟨rfl, rfl, fun _ => rfl, fun _ _ => rfl⟩

/-! ## Calls that fit -/

/-- The dictionaries of a cache are inverse to each other, and its trees are trees of its depth. -/
structure Sound (c : SuffixDecodingCache κ) : Prop where
  paired : Paired c
  globalTree : TreeOk c.maxTreeDepth c.globalTree
  localTrees : ∀ reqId tree, c.localTrees.get? reqId = some tree → TreeOk c.maxTreeDepth tree

section Sound

variable {c : SuffixDecodingCache κ} {reqId : κ} {seqId : SeqId}

theorem init_sound {maxTreeDepth : Nat} {maxCachedRequests : Int}
    (hinit : init maxTreeDepth maxCachedRequests = some c) : Sound c := by
  rw [init] at hinit
  split_ifs at hinit
  obtain rfl := some.inj hinit
  refine ⟨fun reqId seqId => ?_, TreeOk.init maxTreeDepth, fun reqId tree htree => ?_⟩
  · simp
  · simp at htree

theorem Sound.setLocal (h : Sound c) {tree : SuffixTree.State} (htree : TreeOk c.maxTreeDepth tree)
    (reqId : κ) : Sound { c with localTrees := c.localTrees.set reqId tree } := by
  refine ⟨h.paired, h.globalTree, fun x tree' hget => ?_⟩
  rw [Dict.get?_set] at hget
  split_ifs at hget
  · exact some.inj hget ▸ htree
  · exact h.localTrees x tree' hget

theorem Sound.drop (h : Sound c) (layouts : SeqId → Layout)
    (hget : c.reqToSeqId.get? reqId = some seqId) : Sound (c.drop layouts reqId seqId) :=
  ⟨h.paired.drop layouts hget, h.globalTree.remove (layouts seqId) seqId.key, h.localTrees⟩

theorem Sound.enter (h : Sound c) (hreq : c.reqToSeqId.get? reqId = none)
    (hseq : c.seqToReqId.get? seqId = none) : Sound (c.enter reqId seqId) :=
  ⟨h.paired.enter hreq hseq, h.globalTree, h.localTrees⟩

variable {layouts : SeqId → Layout} {fuel : Nat} {o : Outcome κ}

theorem evictLoop_sound (h : Sound c) (hloop : evictLoop layouts seqId fuel c = some o) :
    o.1 = .ok () ∧ Sound o.2 := by
  induction fuel generalizing c with
  | zero => cases hloop
  | succ fuel ih =>
    rw [evictLoop] at hloop
    split_ifs at hloop with hfull
    · cases hfind : c.reqToSeqId.entries.find? fun e => e.2 ≠ seqId with
      | none =>
        rw [hfind] at hloop
        exact ih h hloop
      | some e =>
        have hget : c.reqToSeqId.get? e.1 = some e.2 :=
          (c.reqToSeqId.get?_eq_some).mpr (mem_of_find?_eq_some hfind)
        rw [hfind] at hloop
        simp only [evictCachedResponse_eq h.paired layouts hget] at hloop
        exact ih (h.drop layouts hget) hloop
    · obtain rfl := some.inj hloop
      exact ⟨rfl, h⟩

theorem generateSeqId_sound (h : Sound c) (hreq : c.reqToSeqId.get? reqId = none)
    (hlimit : c.maxCachedRequests ≠ 0) (hgenerate : c.generateSeqId layouts fuel reqId = some o) :
    o.1 = .ok () ∧ Sound o.2 := by
  have hevict : ∀ {c' : SuffixDecodingCache κ} {s : SeqId}, Sound c' →
      c'.maxCachedRequests = c.maxCachedRequests →
      maybeEvictRequests layouts fuel c' s = some o → o.1 = .ok () ∧ Sound o.2 := by
    intro c' s h' hmax hmaybe
    rw [maybeEvictRequests, hmax, if_neg hlimit] at hmaybe
    split_ifs at hmaybe
    · obtain rfl := some.inj hmaybe
      exact ⟨rfl, h'⟩
    · exact evictLoop_sound h' hmaybe
  rw [generateSeqId] at hgenerate
  cases hfind : c.findSeqId fuel c.nextSeqId with
  | none =>
    rw [hfind] at hgenerate
    cases hgenerate
  | some found =>
    obtain ⟨s, next⟩ := found
    have hnext : Sound { c with nextSeqId := next } := ⟨h.paired, h.globalTree, h.localTrees⟩
    rw [hfind] at hgenerate
    cases howner : c.seqToReqId.get? s with
    | none =>
      simp only [reclaim, howner] at hgenerate
      exact hevict (hnext.enter hreq howner) rfl hgenerate
    | some x =>
      have hx : c.reqToSeqId.get? x = some s := (h.paired x s).mpr howner
      have hreclaim : reclaim layouts { c with nextSeqId := next } s =
          (.ok (), drop layouts { c with nextSeqId := next } x s) :=
        reclaim_eq hnext.paired layouts howner
      simp only [hreclaim] at hgenerate
      refine hevict ((hnext.drop layouts hx).enter ?_ ?_) rfl hgenerate
      · rw [SuffixDecodingCache.drop, Dict.get?_erase]
        split_ifs
        · rfl
        · exact hreq
      · exact c.seqToReqId.get?_erase_self s

theorem openSlot_sound (h : Sound c) (hslot : openSlot layouts fuel c reqId = some o) :
    o.1 = .ok () ∧ Sound o.2 := by
  rw [openSlot] at hslot
  split_ifs at hslot with hlimit hcached
  · obtain rfl := some.inj hslot
    exact ⟨rfl, h⟩
  · obtain ⟨s, hget⟩ := isSome_iff_exists.mp hcached
    simp only [evictCachedResponse_eq h.paired layouts hget] at hslot
    exact generateSeqId_sound (h.drop layouts hget) (c.reqToSeqId.get?_erase_self reqId) hlimit
      hslot
  · exact generateSeqId_sound h (not_isSome_iff_eq_none.mp hcached) hlimit hslot

omit [DecidableEq κ] in
theorem validate_cases (args : RawTokenIds) :
    (args.validate : Except (Error κ) Unit) = .ok () ∨
      ∃ e, (args.validate : Except (Error κ) Unit) = .error e := by
  cases (args.validate : Except (Error κ) Unit) with
  | ok _ => exact .inl rfl
  | error e => exact .inr ⟨e, rfl⟩

theorem startRequestRaw_sound {args : RawTokenIds} {o : RawOutcome κ} (h : Sound c)
    (hfits : Fits c (.startRequest reqId args layouts))
    (hstart : c.startRequestRaw layouts fuel reqId args = some o) :
    Sound o.2 ∧ ((∃ e, o.1 = .error e) → o.2 = c) := by
  rw [startRequestRaw] at hstart
  split_ifs at hstart with hactive
  · obtain rfl := some.inj hstart
    exact ⟨h, fun _ => rfl⟩
  · rcases validate_cases (κ := κ) args with hvalid | ⟨e, hvalid⟩
    · obtain ⟨tokens, hconvert, htokens⟩ := hfits (not_isSome_iff_eq_none.mp hactive) hvalid
      have htree := TreeOk.init c.maxTreeDepth
      rw [hvalid, hconvert] at hstart
      simp only [htree.extendTokens_eq htokens, Bool.false_eq_true, if_false] at hstart
      obtain ⟨o', hslot, rfl⟩ := map_eq_some_iff.mp hstart
      obtain ⟨hok, hsound⟩ := openSlot_sound
        ((h.setLocal htree reqId).setLocal (htree.extend (SeqId.key 0) (tokens.map storedKey)) reqId)
        hslot
      refine ⟨hsound, ?_⟩
      rintro ⟨e, he⟩
      simp [raw, hok, Except.mapError] at he
    · rw [hvalid] at hstart
      obtain rfl := some.inj hstart
      exact ⟨h, fun _ => rfl⟩

theorem addActiveResponseRaw_sound {args : RawTokenIds} (h : Sound c)
    (hfits : Fits c (.addActiveResponse reqId args)) :
    Sound (c.addActiveResponseRaw reqId args).2 ∧
      ((∃ e, (c.addActiveResponseRaw reqId args).1 = .error e) →
        (c.addActiveResponseRaw reqId args).2 = c) := by
  unfold addActiveResponseRaw
  cases hlocal : c.localTrees.get? reqId with
  | none => exact ⟨h, fun _ => rfl⟩
  | some tree =>
    rcases validate_cases (κ := κ) args with hvalid | ⟨e, hvalid⟩
    · rw [hvalid]
      cases hconvert : args.convert with
      | none => exact ⟨h, fun _ => rfl⟩
      | some tokens =>
        have htokens := hfits (by rw [hlocal]; rfl) hvalid tokens hconvert
        have htree := h.localTrees reqId tree hlocal
        have hsound := h.setLocal (htree.extend (SeqId.key 0) (tokens.map storedKey)) reqId
        simp only [htree.extendTokens_eq htokens, h.globalTree.extendTokens_eq htokens,
          Bool.false_eq_true, if_false]
        cases c.reqToSeqId.get? reqId with
        | none => exact ⟨hsound, by simp⟩
        | some seqId =>
          exact ⟨⟨hsound.paired, h.globalTree.extend seqId.key (tokens.map storedKey),
            hsound.localTrees⟩, by simp⟩
    · rw [hvalid]
      exact ⟨h, fun _ => rfl⟩

/-- A call that fits keeps the cache sound, and changes nothing if it raises. -/
theorem stepRaw_sound {fuel : Nat} {call : RawCall κ} {o : RawOutcome κ} (h : Sound c)
    (hfits : Fits c call) (hstep : c.stepRaw fuel call = some o) :
    Sound o.2 ∧ ((∃ e, o.1 = .error e) → o.2 = c) := by
  cases call with
  | startRequest reqId args layouts => exact startRequestRaw_sound h hfits hstep
  | addActiveResponse reqId args =>
    obtain rfl := some.inj hstep
    exact addActiveResponseRaw_sound h hfits
  | stopRequest reqId =>
    obtain rfl := some.inj hstep
    unfold stopRequest
    split_ifs
    · refine ⟨⟨h.paired, h.globalTree, fun x tree hget => ?_⟩, by simp [raw, Except.mapError]⟩
      have hget : (c.localTrees.erase reqId).get? x = some tree := hget
      rw [Dict.get?_erase] at hget
      split_ifs at hget
      exact h.localTrees x tree hget
    · exact ⟨h, fun _ => rfl⟩
  | evictCachedResponse reqId layouts =>
    obtain rfl := some.inj hstep
    cases hget : c.reqToSeqId.get? reqId with
    | none =>
      simp only [evictCachedResponse, hget]
      exact ⟨h, fun _ => rfl⟩
    | some seqId =>
      rw [evictCachedResponse_eq h.paired layouts hget]
      exact ⟨h.drop layouts hget, by simp [raw, Except.mapError]⟩

end Sound

/-- The cache is sound after calls that fit. -/
theorem runRaw_sound {fuel : Nat} {c₀ : SuffixDecodingCache κ} (h₀ : Sound c₀)
    (calls : List (RawCall κ)) {c : SuffixDecodingCache κ} (hrun : runRaw fuel c₀ calls = some c)
    (hfits : ∀ done call rest, calls = done ++ call :: rest →
      ∀ d, runRaw fuel c₀ done = some d → Fits d call) : Sound c := by
  induction calls using List.reverseRecOn generalizing c with
  | nil => exact some.inj hrun ▸ h₀
  | append_singleton calls call ih =>
    simp only [runRaw, foldlM_append, foldlM_cons, foldlM_nil] at hrun
    obtain ⟨d, hd, hlast⟩ := bind_eq_some_iff.mp hrun
    have hsound := ih hd fun done call' rest hcalls =>
      hfits done call' (rest ++ [call]) (by rw [hcalls, append_assoc]; rfl)
    obtain ⟨c', hmap, hc'⟩ := bind_eq_some_iff.mp hlast
    obtain ⟨o, hstep, rfl⟩ := map_eq_some_iff.mp hmap
    obtain rfl := some.inj hc'
    exact (stepRaw_sound hsound (hfits calls call [] rfl d hd) hstep).1

/-! ## Calls that do not fit -/

section Unfit

variable {c : SuffixDecodingCache κ} {fuel : Nat} {call : RawCall κ} {o : RawOutcome κ}

theorem changed_of_active {c' : SuffixDecodingCache κ} {reqId : κ}
    (hactive : c.localTrees.get? reqId = none) (hmem : reqId ∈ c'.activeRequests) :
    ¬Unchanged c c' := by
  intro h
  rw [h.activeRequests] at hmem
  exact (c.localTrees.get?_eq_none).mp hactive hmem

/-- A call that does not fit raises, and leaves something changed. -/
theorem changed_of_not_fits (h : Sound c) (hfits : ¬Fits c call)
    (hstep : c.stepRaw fuel call = some o) : (∃ e, o.1 = .error e) ∧ ¬Unchanged c o.2 := by
  cases call with
  | startRequest reqId args layouts =>
    simp only [Fits, not_forall] at hfits
    obtain ⟨hactive, hvalid, hnone⟩ := hfits
    rw [stepRaw, startRequestRaw, if_neg (by rw [hactive]; simp), hvalid] at hstep
    cases hconvert : args.convert with
    | none =>
      rw [hconvert] at hstep
      obtain rfl := some.inj hstep
      exact ⟨⟨_, rfl⟩, changed_of_active hactive ((c.localTrees.mem_keys_set).mpr (.inl rfl))⟩
    | some tokens =>
      have hrefused : Refused c.maxTreeDepth tokens := by
        by_contra hnot
        exact hnone ⟨tokens, hconvert, hnot⟩
      obtain ⟨tree, hextend, -⟩ :=
        extendTokens_refused (TreeOk.init c.maxTreeDepth) (SeqId.key 0) hrefused
      rw [hconvert] at hstep
      simp only [hextend, if_true] at hstep
      obtain rfl := some.inj hstep
      refine ⟨⟨_, rfl⟩, changed_of_active hactive ?_⟩
      exact ((c.localTrees.set reqId (SuffixTree.init c.maxTreeDepth)).mem_keys_set).mpr
        (.inl rfl)
  | addActiveResponse reqId args =>
    simp only [Fits, not_forall, not_not] at hfits
    obtain ⟨hactive, hvalid, tokens, hconvert, hrefused⟩ := hfits
    obtain ⟨tree, hlocal⟩ := isSome_iff_exists.mp hactive
    obtain ⟨tree', hextend, hlt⟩ :=
      extendTokens_refused (h.localTrees reqId tree hlocal) (SeqId.key 0) hrefused
    obtain rfl := some.inj hstep
    simp only [addActiveResponseRaw, hlocal, hvalid, hconvert, hextend, if_true]
    refine ⟨⟨_, rfl⟩, fun hsame => ?_⟩
    have hroot := hsame.localTrees reqId []
    simp only [Dict.get?_set_self, hlocal, map_some, matchCount_nil, some.injEq] at hroot
    exact hlt.ne hroot.symm
  | stopRequest reqId => exact absurd trivial hfits
  | evictCachedResponse reqId layouts => exact absurd trivial hfits

end Unfit

/-- After any calls that fit, a call that raises leaves the requests and all trees as they were if
and only if it fits. -/
theorem raises_unchanged_iff {c₀ : SuffixDecodingCache κ} {maxTreeDepth : Nat}
    {maxCachedRequests : Int} (hinit : init maxTreeDepth maxCachedRequests = some c₀) {fuel : Nat}
    {calls : List (RawCall κ)} {c : SuffixDecodingCache κ} (hrun : runRaw fuel c₀ calls = some c)
    (hfits : ∀ done call rest, calls = done ++ call :: rest →
      ∀ d, runRaw fuel c₀ done = some d → Fits d call)
    {call : RawCall κ} {o : RawOutcome κ} (hstep : c.stepRaw fuel call = some o) :
    ((∃ e, o.1 = .error e) → Unchanged c o.2) ↔ Fits c call := by
  have hsound := runRaw_sound (init_sound hinit) calls hrun hfits
  constructor
  · intro h
    by_contra hnot
    obtain ⟨hraises, hchanged⟩ := changed_of_not_fits hsound hnot hstep
    exact hchanged (h hraises)
  · intro hcall hraises
    rw [(stepRaw_sound hsound hcall hstep).2 hraises]
    exact Unchanged.refl c

/-- A start with a reserved token raises, and its request is active afterwards; an addition raises
at its second token, and the tree has the first. -/
theorem raises_changed :
    ∃ c₀ c c₁ c₂ : SuffixDecodingCache Nat, init 4 0 = some c₀ ∧
      c₀.stepRaw 1 (.startRequest 7 (.sequence [.int (-2147483648)])
        fun _ => ⟨fun _ _ _ => 0, fun _ _ => 0⟩) = some (.error .invalidKey, c) ∧ ¬Unchanged c₀ c ∧
      c₀.stepRaw 1 (.startRequest 7 (.sequence []) fun _ => ⟨fun _ _ _ => 0, fun _ _ => 0⟩) =
        some (.ok (), c₁) ∧
      c₁.stepRaw 1 (.addActiveResponse 7 (.sequence [.int 5, .int (-2147483648)])) =
        some (.error .invalidKey, c₂) ∧ ¬Unchanged c₁ c₂ := by
  refine ⟨_, _, _, _, rfl, rfl, fun h => ?_, rfl, rfl, fun h => ?_⟩
  · exact absurd h.activeRequests (by decide)
  · exact absurd (h.localTrees 7 [⟨5, by decide⟩]) (by decide)

/-- After the start of a request, the addition of an element that is not an integer raises and
changes nothing. -/
theorem raises_unchanged_iff_addition :
    ∃ (c₀ c : SuffixDecodingCache Nat) (o : RawOutcome Nat), init 4 0 = some c₀ ∧
      runRaw 1 c₀ [.startRequest 7 (.sequence [.int 5]) fun _ => ⟨fun _ _ _ => 0, fun _ _ => 0⟩] =
        some c ∧ c.stepRaw 1 (.addActiveResponse 7 (.sequence [.int 6, .other])) = some o ∧
      (((∃ e, o.1 = .error e) → Unchanged c o.2) ↔
        Fits c (.addActiveResponse 7 (.sequence [.int 6, .other]))) := by
  refine ⟨_, _, _, rfl, rfl, rfl, raises_unchanged_iff (show init 4 0 = some _ from rfl)
    (show runRaw 1 _ [.startRequest 7 (.sequence [.int 5])
      fun _ => ⟨fun _ _ _ => 0, fun _ _ => 0⟩] = some _ from rfl) ?_ rfl⟩
  intro done call rest hcalls d hd
  cases done with
  | nil =>
    obtain ⟨rfl, rfl⟩ := List.cons.inj hcalls
    obtain rfl := some.inj hd
    refine fun _ _ => ⟨[⟨5, by decide⟩], rfl, ?_⟩
    rintro ⟨-, t, ht, hvalid⟩
    rw [mem_singleton.mp ht] at hvalid
    exact hvalid (by decide)
  | cons first done => simp at hcalls

end SuffixDecodingCache

end ArcticPlatform.SuffixCache
