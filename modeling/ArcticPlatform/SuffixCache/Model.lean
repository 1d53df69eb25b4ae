import ArcticPlatform.Library.Dict
import ArcticPlatform.SuffixTree.Operations

/-!
# Suffix decoding cache

An embedding of the Python class `SuffixDecodingCache`: a suffix tree for each
active request, and a global tree with the responses of cached requests, which are
known to the tree by sequence ids of 31 bits.

The two loops of the class, over the sequence ids and over the cached requests, run
on fuel; `none` means that the fuel ran out.  A call gets the slot orders of the
hash tables that the removal of a sequence reads, by the id of the sequence.
`speculate` changes nothing and is left out.
-/

namespace ArcticPlatform.SuffixCache

open Dicts
open SuffixTree (Key Layout)

/-! ## Sequence ids -/

/-- The non-negative values of an `int32_t`. -/
abbrev SeqId := Fin 0x80000000

namespace SeqId

instance : NeZero 0x80000000 := ⟨by decide⟩

/-- `(seq_id + 1) & 0x7FFFFFFF`. -/
def next (s : SeqId) : SeqId :=
  ⟨(s.val + 1) &&& 0x7FFFFFFF, Nat.lt_succ_of_le Nat.and_le_right⟩

/-- The key of a sequence in the tree. -/
def key (s : SeqId) : Key :=
  ⟨s.val, by
    have := s.isLt
    simp only [SuffixTree.ValidKey, SuffixTree.keyTombstone, SuffixTree.keyEmpty]
    omega⟩

end SeqId

/-! ## Arguments and errors -/

/-- `arr.dtype`. -/
inductive ArrayDtype where
  | int32
  | other (name : String)
  deriving DecidableEq

/-- The tokens of a call: a sequence, or an array with what is checked of it. -/
inductive TokenIds where
  | sequence (tokens : List Key)
  | ndarray (ndim : Nat) (dtype : ArrayDtype) (contiguous : Bool) (tokens : List Key)

/-- The exceptions of the class; all but the last two are `ValueError`s. -/
inductive Error (κ : Type) where
  | alreadyActive (reqId : κ)
  | notActive (reqId : κ)
  | notCached (reqId : κ)
  | ndim (ndim : Nat)
  | dtype (name : String)
  | notContiguous
  | keyError
  | assertionError
  deriving DecidableEq

/-- `_validate_ndarray`, for arguments that are arrays; returns the tokens. -/
def TokenIds.validate {κ : Type} : TokenIds → Except (Error κ) (List Key)
  | .sequence tokens => .ok tokens
  | .ndarray ndim dtype contiguous tokens =>
    if ndim ≠ 1 then .error (.ndim ndim)
    else match dtype with
      | .other name => .error (.dtype name)
      | .int32 => if contiguous then .ok tokens else .error .notContiguous

/-! ## The cache -/

/-- `SuffixDecodingCache`. -/
structure SuffixDecodingCache (κ : Type) where
  maxTreeDepth : Nat
  maxCachedRequests : Int
  globalTree : SuffixTree.State
  localTrees : Dict κ SuffixTree.State
  reqToSeqId : Dict κ SeqId
  seqToReqId : Dict SeqId κ
  nextSeqId : SeqId

/-- What a call that ends leaves: the exception it raised, if any, and the cache. -/
abbrev Outcome (κ : Type) := Except (Error κ) Unit × SuffixDecodingCache κ

namespace SuffixDecodingCache

variable {κ : Type} [DecidableEq κ]

/-- `__init__`; `none` is its `ValueError`. -/
def init (maxTreeDepth : Nat) (maxCachedRequests : Int) : Option (SuffixDecodingCache κ) :=
  if maxCachedRequests > 0x7FFFFFFF then none
  else some
    { maxTreeDepth := maxTreeDepth
      maxCachedRequests := maxCachedRequests
      globalTree := SuffixTree.init maxTreeDepth
      localTrees := .empty
      reqToSeqId := .empty
      seqToReqId := .empty
      nextSeqId := 0 }

/-- `active_requests`. -/
def activeRequests (c : SuffixDecodingCache κ) : List κ := c.localTrees.keys

/-- `cached_requests`, the oldest first. -/
def cachedRequests (c : SuffixDecodingCache κ) : List κ := c.reqToSeqId.keys

section Evict

variable (layouts : SeqId → Layout)

/-- `evict_cached_response`. -/
def evictCachedResponse (c : SuffixDecodingCache κ) (reqId : κ) : Outcome κ :=
  match c.reqToSeqId.get? reqId with
  | none => (.error (.notCached reqId), c)
  | some seqId =>
    let c := { c with reqToSeqId := c.reqToSeqId.erase reqId }
    match c.seqToReqId.get? seqId with
    | none => (.error .keyError, c)
    | some _ =>
      (.ok (), { c with
          seqToReqId := c.seqToReqId.erase seqId
          globalTree := SuffixTree.remove (layouts seqId) c.globalTree seqId.key })

/-- The loop of `_maybe_evict_requests`. -/
def evictLoop (newSeqId : SeqId) : Nat → SuffixDecodingCache κ → Option (Outcome κ)
  | 0, _ => none
  | fuel + 1, c =>
    if (c.reqToSeqId.entries.length : Int) > c.maxCachedRequests then
      match c.reqToSeqId.entries.find? fun e => e.2 ≠ newSeqId with
      | none => evictLoop newSeqId fuel c
      | some e =>
        match c.evictCachedResponse layouts e.1 with
        | (.ok _, c) => evictLoop newSeqId fuel c
        | (.error e, c) => some (.error e, c)
    else some (.ok (), c)

/-- `_maybe_evict_requests`. -/
def maybeEvictRequests (fuel : Nat) (c : SuffixDecodingCache κ) (newSeqId : SeqId) :
    Option (Outcome κ) :=
  if c.maxCachedRequests < 0 then some (.ok (), c)
  else if c.maxCachedRequests = 0 then some (.error .assertionError, c)
  else evictLoop layouts newSeqId fuel c

end Evict

/-- A sequence id is free when no cached request that is active has it. -/
def isFree (c : SuffixDecodingCache κ) (seqId : SeqId) : Bool :=
  match c.seqToReqId.get? seqId with
  | none => true
  | some reqId => (c.localTrees.get? reqId).isNone

/-- The loop of `_generate_seq_id`: the free id, and the id to look at next time. -/
def findSeqId (c : SuffixDecodingCache κ) : Nat → SeqId → Option (SeqId × SeqId)
  | 0, _ => none
  | fuel + 1, seqId =>
    if c.isFree seqId then some (seqId, seqId.next) else c.findSeqId fuel seqId.next

/-- Take a sequence id from the inactive request that still has it. -/
def reclaim (layouts : SeqId → Layout) (c : SuffixDecodingCache κ) (seqId : SeqId) : Outcome κ :=
  match c.seqToReqId.get? seqId with
  | none => (.ok (), c)
  | some reqId =>
    match c.reqToSeqId.get? reqId with
    | none => (.error .keyError, c)
    | some _ =>
      (.ok (), { c with
          reqToSeqId := c.reqToSeqId.erase reqId
          seqToReqId := c.seqToReqId.erase seqId
          globalTree := SuffixTree.remove (layouts seqId) c.globalTree seqId.key })

/-- `_generate_seq_id`. -/
def generateSeqId (layouts : SeqId → Layout) (fuel : Nat) (c : SuffixDecodingCache κ) (reqId : κ) :
    Option (Outcome κ) :=
  match c.findSeqId fuel c.nextSeqId with
  | none => none
  | some (seqId, nextSeqId) =>
    match reclaim layouts { c with nextSeqId := nextSeqId } seqId with
    | (.error e, c) => some (.error e, c)
    | (.ok _, c) =>
      maybeEvictRequests layouts fuel
        { c with
          reqToSeqId := c.reqToSeqId.set reqId seqId
          seqToReqId := c.seqToReqId.set seqId reqId }
        seqId

/-- The part of `start_request` for the global cache. -/
def openSlot (layouts : SeqId → Layout) (fuel : Nat) (c : SuffixDecodingCache κ) (reqId : κ) :
    Option (Outcome κ) :=
  if c.maxCachedRequests = 0 then some (.ok (), c)
  else if (c.reqToSeqId.get? reqId).isSome then
    match c.evictCachedResponse layouts reqId with
    | (.error e, c) => some (.error e, c)
    | (.ok _, c) => c.generateSeqId layouts fuel reqId
  else c.generateSeqId layouts fuel reqId

/-- `start_request`. -/
def startRequest (layouts : SeqId → Layout) (fuel : Nat) (c : SuffixDecodingCache κ) (reqId : κ)
    (promptTokenIds : TokenIds) : Option (Outcome κ) :=
  if (c.localTrees.get? reqId).isSome then some (.error (.alreadyActive reqId), c)
  else match promptTokenIds.validate with
    | .error e => some (.error e, c)
    | .ok tokens =>
      let tree := SuffixTree.extend (SuffixTree.init c.maxTreeDepth) (SeqId.key 0) tokens
      openSlot layouts fuel { c with localTrees := c.localTrees.set reqId tree } reqId

/-- `stop_request`. -/
def stopRequest (c : SuffixDecodingCache κ) (reqId : κ) : Outcome κ :=
  if (c.localTrees.get? reqId).isSome then
    (.ok (), { c with localTrees := c.localTrees.erase reqId })
  else (.error (.notActive reqId), c)

/-- `add_active_response`. -/
def addActiveResponse (c : SuffixDecodingCache κ) (reqId : κ) (tokenIds : TokenIds) : Outcome κ :=
  match c.localTrees.get? reqId with
  | none => (.error (.notActive reqId), c)
  | some tree =>
    match tokenIds.validate with
    | .error e => (.error e, c)
    | .ok tokens =>
      let c := { c with
        localTrees := c.localTrees.set reqId (SuffixTree.extend tree (SeqId.key 0) tokens) }
      match c.reqToSeqId.get? reqId with
      | none => (.ok (), c)
      | some seqId =>
        (.ok (), { c with globalTree := SuffixTree.extend c.globalTree seqId.key tokens })

end SuffixDecodingCache

/-! ## Runs -/

/-- The calls that change a cache. -/
inductive Call (κ : Type) where
  | startRequest (reqId : κ) (promptTokenIds : TokenIds) (layouts : SeqId → Layout)
  | stopRequest (reqId : κ)
  | addActiveResponse (reqId : κ) (tokenIds : TokenIds)
  | evictCachedResponse (reqId : κ) (layouts : SeqId → Layout)

namespace SuffixDecodingCache

variable {κ : Type} [DecidableEq κ]

/-- One call. -/
def step (fuel : Nat) (c : SuffixDecodingCache κ) : Call κ → Option (Outcome κ)
  | .startRequest reqId promptTokenIds layouts => c.startRequest layouts fuel reqId promptTokenIds
  | .stopRequest reqId => some (c.stopRequest reqId)
  | .addActiveResponse reqId tokenIds => some (c.addActiveResponse reqId tokenIds)
  | .evictCachedResponse reqId layouts => some (c.evictCachedResponse layouts reqId)

/-- The cache after calls, whose exceptions the caller survives. -/
def run (fuel : Nat) (c : SuffixDecodingCache κ) (calls : List (Call κ)) :
    Option (SuffixDecodingCache κ) := calls.foldlM (fun c call => (c.step fuel call).map Prod.snd) c

end SuffixDecodingCache

end ArcticPlatform.SuffixCache
