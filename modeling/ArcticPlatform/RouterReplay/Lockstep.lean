import ArcticPlatform.RouterReplay.CacheRuns
import ArcticPlatform.RouterReplay.PlanSpec
import ArcticPlatform.RouterReplay.Posts
import ArcticPlatform.RouterReplay.Rounds

/-!
# Router replay: ranks in step

What the ranks post for each other matches, so a round in which every rank takes
part completes.  A receiver whose cache refuses an array leaves the loop at that
round.

Main results:

- Theorem `inStep_run`: while every cache has room, all ranks are in the loop and
  the receivers hold what they were sent.
- Theorem `exchange_rounds_correct`: the rounds and what they deliver.
- Theorem `exchange_rounds_equal_iff`: when all ranks run all rounds.
-/

namespace ArcticPlatform.RouterReplay

open Dicts Results List

variable {snapshots : Nat → Dict String Capture}

/-! ## What an RX cache holds -/

/-- The sizes of the arrays of operations, one for each id. -/
def tally (ops : List TransferOp) : Dict String Nat :=
  ops.foldl (fun d op => d.set op.sampleId op.nbytes) .empty

/-- Bytes of the distinct ids of operations. -/
def tallyBytes (ops : List TransferOp) : Nat := (tally ops).total id

theorem tally_snoc (ops : List TransferOp) (op : TransferOp) :
    tally (ops ++ [op]) = (tally ops).set op.sampleId op.nbytes := by
  simp [tally]

/-- Operations with one size for each id. -/
def SizesAgree (ops : List TransferOp) : Prop :=
  ∀ a ∈ ops, ∀ b ∈ ops, a.sampleId = b.sampleId → a.nbytes = b.nbytes

theorem tally_get? {ops : List TransferOp} {sid : String} {n : Nat}
    (h : (tally ops).get? sid = some n) : ∃ op ∈ ops, op.sampleId = sid ∧ op.nbytes = n := by
  induction ops using List.reverseRecOn with
  | nil => cases h
  | append_singleton ops op ih =>
    rw [tally_snoc, Dict.get?_set] at h
    split at h
    · rename_i hsid
      exact ⟨op, by simp, hsid.symm, Option.some.inj h⟩
    · obtain ⟨x, hx, hsid, hn⟩ := ih h
      exact ⟨x, by simp [hx], hsid, hn⟩

theorem tallyBytes_snoc_le {ops : List TransferOp} {op : TransferOp}
    (hagree : SizesAgree (ops ++ [op])) : tallyBytes ops ≤ tallyBytes (ops ++ [op]) := by
  have htotal := (tally ops).total_set id op.sampleId op.nbytes
  simp only [tallyBytes, tally_snoc]
  cases hget : (tally ops).get? op.sampleId with
  | none => simp only [hget, Option.map_none, Option.getD_none, id_eq] at htotal; omega
  | some n =>
    obtain ⟨x, hx, hsid, rfl⟩ := tally_get? hget
    have hsize := hagree x (by simp [hx]) op (by simp) hsid
    simp only [hget, Option.map_some, Option.getD_some, id_eq] at htotal
    omega

theorem SizesAgree.mono {ops ops' : List TransferOp} (h : SizesAgree ops') (hsub : ops ⊆ ops') :
    SizesAgree ops := fun a ha b hb hab => h a (hsub ha) b (hsub hb) hab

theorem tallyBytes_append_le {ops more : List TransferOp} (hagree : SizesAgree (ops ++ more)) :
    tallyBytes ops ≤ tallyBytes (ops ++ more) := by
  induction more using List.reverseRecOn with
  | nil => simp
  | append_singleton more op ih =>
    rw [← append_assoc] at hagree ⊢
    exact le_trans (ih (hagree.mono (subset_append_left _ _))) (tallyBytes_snoc_le hagree)

/-- An RX cache that holds the arrays of operations, and nothing else. -/
structure RxHolds (snapshots : Nat → Dict String Capture) (maxBytes : Nat) (ops : List TransferOp)
    (c : Cache Capture) : Prop where
  tx : c.tx = none
  maxBytes_eq : c.maxBytes = maxBytes
  sizes : c.sizes = tally ops
  bytes : c.bytesInUse = tallyBytes ops
  fits : tallyBytes ops ≤ maxBytes
  data : ∀ op ∈ ops, ∃ dest, fillDest op (wire snapshots op) = some dest ∧
    c.data.get? op.sampleId = some dest
  nothingElse : ∀ sid dest, c.data.get? sid = some dest → ∃ op ∈ ops, op.sampleId = sid

section RxHolds

variable {maxBytes : Nat} {ops : List TransferOp} {c : Cache Capture} {op : TransferOp}
  {array dest : Capture}

theorem rxHolds_clear (cacheRx : RxCache) :
    RxHolds snapshots cacheRx.val.maxBytes [] cacheRx.val.clear where
  tx := cacheRx.property
  maxBytes_eq := rfl
  sizes := rfl
  bytes := rfl
  fits := zero_le
  data := by simp
  nothingElse := by simp [Cache.clear]

section

variable (hc : RxHolds snapshots maxBytes ops c)
include hc

theorem projected_eq (hnbytes : dest.nbytes = op.nbytes) :
    c.bytesInUse - (c.sizes.get? op.sampleId).getD 0 + dest.nbytes = tallyBytes (ops ++ [op]) := by
  have htotal := (tally ops).total_set id op.sampleId op.nbytes
  rw [hc.bytes, hc.sizes, hnbytes]
  simp only [Option.map_id_fun, id_eq] at htotal
  simp only [tallyBytes, tally_snoc]
  omega

theorem rxHolds_put (now : ℚ)
    (hdest : fillDest op (wire snapshots op) = some dest) (hnbytes : dest.nbytes = op.nbytes)
    (hsame : ∀ x ∈ ops, x.sampleId = op.sampleId → x = op)
    (hroom : tallyBytes (ops ++ [op]) ≤ maxBytes) :
    ∃ c', c.put id Capture.nbytes op.sampleId dest now = (.ok true, c') ∧
      RxHolds snapshots maxBytes (ops ++ [op]) c' := by
  have hprojected := projected_eq hc hnbytes
  refine ⟨c.store Capture.nbytes op.sampleId dest now (tallyBytes (ops ++ [op])), ?_, ?_⟩
  · simp only [Cache.put, Cache.insertEntry, Cache.evictForPut, hc.tx, id_eq, hprojected,
      hc.maxBytes_eq]
    rw [if_neg (by omega)]
  · constructor
    case tx => exact hc.tx
    case maxBytes_eq => exact hc.maxBytes_eq
    case sizes =>
      simp only [Cache.store]
      rw [hc.sizes, hnbytes, tally_snoc]
    case bytes => rfl
    case fits => exact hroom
    case data =>
      intro x hx
      simp only [Cache.store]
      by_cases hsid : x.sampleId = op.sampleId
      · have hxop : x = op := by
          rcases mem_append.mp hx with hx | hx
          · exact hsame x hx hsid
          · exact mem_singleton.mp hx
        subst hxop
        exact ⟨dest, hdest, by simp⟩
      · have hx : x ∈ ops := by
          rcases mem_append.mp hx with hx | hx
          · exact hx
          · rw [mem_singleton.mp hx] at hsid
            exact absurd rfl hsid
        obtain ⟨d, hd, hget⟩ := hc.data x hx
        exact ⟨d, hd, by simpa [hsid] using hget⟩
    case nothingElse =>
      intro sid d hget
      simp only [Cache.store, Dict.get?_set] at hget
      split at hget
      · rename_i hsid
        exact ⟨op, by simp, hsid.symm⟩
      · obtain ⟨x, hx, hsid⟩ := hc.nothingElse sid d hget
        exact ⟨x, by simp [hx], hsid⟩

theorem rx_put_refused (now : ℚ)
    (hnbytes : dest.nbytes = op.nbytes) (hfull : ¬ tallyBytes (ops ++ [op]) ≤ maxBytes) :
    ∃ e, c.put id Capture.nbytes op.sampleId dest now = (.error e, c) := by
  have hprojected := projected_eq hc hnbytes
  refine ⟨.full (tallyBytes (ops ++ [op])) maxBytes op.sampleId, ?_⟩
  simp only [Cache.put, Cache.insertEntry, Cache.evictForPut, hc.tx, id_eq, hprojected,
    hc.maxBytes_eq]
  rw [if_pos (by omega)]

end

/-- The arrays of a round of operations. -/
structure Arrived (snapshots : Nat → Dict String Capture) (dests : List (TransferOp × Capture)) :
    Prop where
  filled : ∀ p ∈ dests, fillDest p.1 (wire snapshots p.1) = some p.2
  nbytes : ∀ p ∈ dests, p.2.nbytes = p.1.nbytes

theorem Arrived.tail {p : TransferOp × Capture} {dests : List (TransferOp × Capture)}
    (h : Arrived snapshots (p :: dests)) : Arrived snapshots dests where
  filled := fun q hq => h.filled q (mem_cons_of_mem _ hq)
  nbytes := fun q hq => h.nbytes q (mem_cons_of_mem _ hq)

/-- The puts of a round succeed if the cache has room for all of its arrays, and else one is
refused. -/
theorem putAll_cases (hc : RxHolds snapshots maxBytes ops c) (now : ℚ)
    {dests : List (TransferOp × Capture)} (harrived : Arrived snapshots dests)
    (hsame : ∀ x ∈ ops ++ dests.map Prod.fst, ∀ y ∈ ops ++ dests.map Prod.fst,
      x.sampleId = y.sampleId → x = y) :
    (tallyBytes (ops ++ dests.map Prod.fst) ≤ maxBytes ∧ ∃ c', putAll now dests c = (.ok (), c') ∧
      RxHolds snapshots maxBytes (ops ++ dests.map Prod.fst) c') ∨
    (¬ tallyBytes (ops ++ dests.map Prod.fst) ≤ maxBytes ∧
      ∃ e c', putAll now dests c = (.error e, c')) := by
  induction dests generalizing ops c with
  | nil =>
    left
    rw [map_nil, append_nil]
    exact ⟨hc.fits, c, rfl, hc⟩
  | cons p dests ih =>
    obtain ⟨op, dest⟩ := p
    have hdest := harrived.filled (op, dest) mem_cons_self
    have hnbytes := harrived.nbytes (op, dest) mem_cons_self
    rw [map_cons, append_cons] at hsame ⊢
    by_cases hroom : tallyBytes (ops ++ [op]) ≤ maxBytes
    · obtain ⟨c', hput, hc'⟩ := rxHolds_put hc now hdest hnbytes
        (fun x hx hsid => hsame x (by simp [hx]) op (by simp) hsid) hroom
      rw [putAll, hput]
      exact ih hc' harrived.tail hsame
    · right
      obtain ⟨e, hput⟩ := rx_put_refused hc now hnbytes hroom
      refine ⟨?_, e, c, by rw [putAll, hput]⟩
      intro hle
      apply hroom
      refine le_trans (tallyBytes_append_le ?_) hle
      intro a ha b hb hab
      rw [hsame a ha b hb hab]

end RxHolds

/-! ## Plans of the ranks -/

theorem Peer.rank_manifest (p : Peer) : p.manifest.rank = p.rank := by
  cases p with
  | sender => rfl
  | receiver => rfl

theorem map_rank_manifest (peers : List Peer) :
    (peers.map Peer.manifest).map (·.rank) = peers.map Peer.rank := by
  rw [map_map]
  exact map_congr_left fun p _ => p.rank_manifest

variable {peers : List Peer}

theorem find?_rank (hranks : (peers.map Peer.rank).Nodup) {p : Peer} (hp : p ∈ peers) :
    (peers.find? fun q => q.rank = p.rank) = some p := by
  cases hfind : peers.find? fun q => q.rank = p.rank with
  | none =>
    have := find?_eq_none.mp hfind p hp
    simp at this
  | some q =>
    have hq := mem_of_find?_eq_some hfind
    have hrank : q.rank = p.rank := by simpa using find?_some hfind
    rw [inj_on_of_nodup_map hranks hq hp hrank]

theorem snapshotAt_rank (hranks : (peers.map Peer.rank).Nodup) {p : Peer} (hp : p ∈ peers) :
    snapshotAt peers p.rank = p.snapshot := by
  rw [snapshotAt, find?_rank hranks hp]
  rfl

theorem exchangeManifest_eq_ok {manifests : List PerRankManifest} {plan : List TransferOp}
    {missing : Finset String} {rounds : List (List TransferOp)}
    (h : exchangeManifest manifests = .ok (plan, missing, rounds)) :
    computePlan manifests = .ok (plan, missing) ∧ rounds = planRounds manifests plan := by
  obtain ⟨⟨plan', missing'⟩, hplan, h⟩ := bind_eq_ok.mp h
  dsimp only at h
  split_ifs at h
  cases h
  exact ⟨hplan, rfl⟩

section Plan

variable {peers : List Peer} {plan : List TransferOp} {missing : Finset String}

/-- The operations of a plan are served by the snapshots that the manifests describe. -/
theorem served_of_plan (hranks : (peers.map Peer.rank).Nodup)
    (h : computePlan (peers.map Peer.manifest) = .ok (plan, missing)) :
    ∀ op ∈ plan, ∃ c, Served (snapshotAt peers) op c := by
  intro op hop
  have hplan := planFor_computePlan (by rwa [map_rank_manifest]) h
  obtain ⟨s, howner, hrank, hshape, hdtype⟩ := hplan.owner op hop
  obtain ⟨p, hp, rfl⟩ := mem_map.mp howner.mem
  obtain ⟨m, -, -, -, -, hrange⟩ := computePlan_requested h op hop
  cases p with
  | receiver => cases howner.sender
  | sender rank snapshot stagingBytes =>
    have hsnapshot : snapshotAt peers op.senderRank = snapshot := by
      rw [← hrank]
      exact snapshotAt_rank hranks hp
    obtain ⟨c, hfound, hshape⟩ := Option.map_eq_some_iff.mp hshape
    refine ⟨c, ?_, hshape, ?_, ?_⟩
    · rw [hsnapshot]
      exact hfound
    · have hdtype : (snapshot.get? op.sampleId).map Capture.dtype = some op.dtype := by
        exact (lookupKey_eq_ok (d := fun sid => (snapshot.get? sid).map Capture.dtype)).mp hdtype
      rw [hfound, Option.map_some] at hdtype
      exact Option.some.inj hdtype
    · intro range hsome
      rw [hsome] at hrange
      obtain ⟨ranges, requested, dim, rest, -, -, hdim, rfl⟩ := requestedRange_eq_some hrange
      exact ⟨dim, rest, hdim, clamp_stop_le requested dim⟩

theorem staleOp_eq_none {snapshots : Nat → Dict String Capture} {ops : List TransferOp}
    (h : ∀ op ∈ ops, ∃ c, Served snapshots op c) (rank : Nat) : staleOp snapshots ops rank = none := by
  rw [staleOp, find?_eq_none]
  intro op hop
  obtain ⟨c, hc⟩ := h op hop
  simp only [decide_eq_true_eq, not_and]
  rintro rfl
  simp [hc.found]

end Plan

/-! ## Rounds of all ranks -/

/-- The operations that a rank receives. -/
def receivedBy (rank : Nat) (ops : List TransferOp) : List TransferOp :=
  ops.filter fun op => op.recvRank = rank

/-- The RX cache of a receiver has room for what it receives. -/
def Peer.HasRoom (ops : List TransferOp) : Peer → Prop
  | .sender _ _ _ => True
  | .receiver rank _ _ _ _ cacheRx => tallyBytes (receivedBy rank ops) ≤ cacheRx.val.maxBytes

instance (ops : List TransferOp) : DecidablePred (Peer.HasRoom ops)
  | .sender _ _ _ => inferInstanceAs (Decidable True)
  | .receiver rank _ _ _ _ cacheRx =>
    inferInstanceAs (Decidable (tallyBytes (receivedBy rank ops) ≤ cacheRx.val.maxBytes))

/-- The RX cache of a receiver holds what it received. -/
def Peer.Holds (snapshots : Nat → Dict String Capture) (ops : List TransferOp)
    (caches : Nat → Cache Capture) : Peer → Prop
  | .sender _ _ _ => True
  | .receiver rank _ _ _ _ cacheRx =>
    RxHolds snapshots cacheRx.val.maxBytes (receivedBy rank ops) (caches rank)

/-- The ranks behind the rounds with the operations `done`, all still in the loop. -/
structure InStep (peers : List Peer) (done : List (List TransferOp)) (w : World) : Prop where
  active : ∀ p ∈ peers, w.status p.rank = .active
  groups : ∀ p ∈ peers, w.groups p.rank = done.length
  holds : ∀ p ∈ peers, p.Holds (snapshotAt peers) done.flatten w.caches

/-- The operations of the ranks: served, from a sender to a receiver, with one for each id that a
receiver gets. -/
structure Exchangeable (peers : List Peer) (ops : List TransferOp) : Prop where
  ranks : (peers.map Peer.rank).Nodup
  served : ∀ op ∈ ops, ∃ c, Served (snapshotAt peers) op c
  receivers : ∀ op ∈ ops, ∀ rank snapshot staging, Peer.sender rank snapshot staging ∈ peers →
    op.recvRank ≠ rank
  same : ∀ a ∈ ops, ∀ b ∈ ops, a.recvRank = b.recvRank → a.sampleId = b.sampleId → a = b

theorem exchangeable_of_plan {plan : List TransferOp} {missing : Finset String}
    (hranks : (peers.map Peer.rank).Nodup)
    (h : computePlan (peers.map Peer.manifest) = .ok (plan, missing)) :
    Exchangeable peers plan := by
  have hranks' : ((peers.map Peer.manifest).map (·.rank)).Nodup := by rwa [map_rank_manifest]
  constructor
  case ranks => exact hranks
  case served => exact served_of_plan hranks h
  case same =>
    intro a ha b hb hrecv hsid
    exact computePlan_inj hranks' h ha hb hrecv hsid
  case receivers =>
    intro op hop rank snapshot staging hp hrank
    obtain ⟨m, hm, hrole, hm_rank, -⟩ := (planFor_computePlan hranks' h).needed op hop
    have hsame : m = (Peer.sender rank snapshot staging).manifest :=
      inj_on_of_nodup_map hranks' hm (mem_map_of_mem hp) (hm_rank.trans hrank)
    rw [hsame] at hrole
    cases hrole

section Step

variable {peers : List Peer} {ops : List TransferOp} {done : List (List TransferOp)}
  {round : List TransferOp} {w : World}

theorem Exchangeable.mono (h : Exchangeable peers ops) {ops' : List TransferOp} (hsub : ops' ⊆ ops) :
    Exchangeable peers ops' where
  ranks := h.ranks
  served := fun op hop => h.served op (hsub hop)
  receivers := fun op hop => h.receivers op (hsub hop)
  same := fun a ha b hb => h.same a (hsub ha) b (hsub hb)

theorem completes_of_inStep (hw : InStep peers done w) (h : Exchangeable peers round) (p : Nat) :
    w.Completes (snapshotAt peers) (peers.map Peer.rank) round p := by
  intro q hq
  obtain ⟨peer, hpeer, rfl⟩ := mem_map.mp hq
  exact ⟨matched_of_served h.served _ _, matched_of_served h.served _ _,
    fun _ => hw.active peer hpeer⟩

theorem takeMessages_round (h : Exchangeable peers round) (rank : Nat) :
    ∃ dests, takeMessages (fun s => messages (snapshotAt peers) round s rank)
        (round.filter fun op => op.recvRank = rank) = some dests ∧
      dests.map Prod.fst = receivedBy rank round ∧ Arrived (snapshotAt peers) dests := by
  have hserved : ∀ op ∈ receivedBy rank round, ∃ c, Served (snapshotAt peers) op c :=
    fun op hop => h.served op (mem_of_mem_filter hop)
  have hchannels : ∀ s, messages (snapshotAt peers) round s rank =
      ((receivedBy rank round).filter fun op => op.senderRank = s ∧
        (op.tokenRange = none ∨ op.numel > 0)).map (wire (snapshotAt peers)) := by
    intro s
    rw [messages_eq h.served, postedBetween, receivedBy, filter_filter]
    congr 2
    funext op
    rw [Bool.eq_iff_iff]
    simp only [decide_eq_true_eq, Bool.and_eq_true]
    tauto
  obtain ⟨dests, htake, hfst, hfill⟩ := takeMessages_eq hserved hchannels
  refine ⟨dests, htake, hfst, hfill, ?_⟩
  intro p hp
  obtain ⟨c, hc⟩ := hserved p.1 (hfst ▸ mem_map_of_mem hp)
  obtain ⟨dest, hdest, -, -, -, hnbytes⟩ := fillDest_wire hc
  have hsame : dest = p.2 := by
    have := hfill p hp
    rw [hdest] at this
    exact Option.some.inj this
  rw [← hsame]
  exact hnbytes

theorem receivedBy_append (rank : Nat) (a b : List TransferOp) :
    receivedBy rank (a ++ b) = receivedBy rank a ++ receivedBy rank b := filter_append a b

/-- A round of a rank in the loop: it goes on when its cache has room, and leaves the loop when it
has not. -/
theorem rankRound_cases (hw : InStep peers done w) (h : Exchangeable peers (done.flatten ++ round))
    (now : ℚ) {p : Peer} (hp : p ∈ peers) :
    (p.HasRoom (done.flatten ++ round) ∧
      ∃ c, w.rankRound (snapshotAt peers) (peers.map Peer.rank) now round p.rank = (.active, c) ∧
        p.Holds (snapshotAt peers) (done.flatten ++ round) fun _ => c) ∨
    (¬ p.HasRoom (done.flatten ++ round) ∧
      ∃ e c, w.rankRound (snapshotAt peers) (peers.map Peer.rank) now round p.rank =
        (.refused e, c)) := by
  have hround : Exchangeable peers round := h.mono (subset_append_right _ _)
  obtain ⟨dests, htake, hfst, harrived⟩ := takeMessages_round hround p.rank
  rw [World.rankRound, if_pos (completes_of_inStep hw hround p.rank), htake]
  cases p with
  | sender rank snapshot staging =>
    -- Nothing is sent to a sender, so it has nothing to store.
    have hnil : receivedBy rank round = [] := by
      rw [receivedBy, filter_eq_nil_iff]
      intro op hop
      simpa using hround.receivers op hop rank snapshot staging hp
    have hdests : dests = [] := map_eq_nil_iff.mp (hfst.trans hnil)
    subst hdests
    exact .inl ⟨trivial, _, rfl, trivial⟩
  | receiver rank needed discard allowMissing tokenRanges cacheRx =>
    have hholds : RxHolds (snapshotAt peers) cacheRx.val.maxBytes (receivedBy rank done.flatten)
        (w.caches rank) := hw.holds _ hp
    have hops : receivedBy rank done.flatten ++ dests.map Prod.fst =
        receivedBy rank (done.flatten ++ round) := by
      rw [hfst, receivedBy_append]
      rfl
    have hsame : ∀ x ∈ receivedBy rank (done.flatten ++ round),
        ∀ y ∈ receivedBy rank (done.flatten ++ round), x.sampleId = y.sampleId → x = y := by
      intro x hx y hy hsid
      obtain ⟨hx, hxr⟩ := mem_filter.mp hx
      obtain ⟨hy, hyr⟩ := mem_filter.mp hy
      have hrecv : x.recvRank = y.recvRank := by
        rw [of_decide_eq_true hxr, of_decide_eq_true hyr]
      exact h.same x hx y hy hrecv hsid
    have hcases := putAll_cases hholds now harrived (by rwa [hops])
    rw [hops] at hcases
    rcases hcases with ⟨hroom, c, hput, hc⟩ | ⟨hfull, e, c, hput⟩
    · left
      refine ⟨hroom, c, ?_, hc⟩
      simp only [Peer.rank, hput]
    · right
      refine ⟨hfull, e, c, ?_⟩
      simp only [Peer.rank, hput]

/-- A round that all receivers have room for keeps the ranks in step. -/
theorem inStep_step (hw : InStep peers done w) (h : Exchangeable peers (done.flatten ++ round))
    (now : ℚ) (hroom : ∀ p ∈ peers, p.HasRoom (done.flatten ++ round)) :
    InStep peers (done ++ [round]) (w.step (snapshotAt peers) (peers.map Peer.rank) now round) := by
  have hflatten : (done ++ [round]).flatten = done.flatten ++ round := by simp
  have hactive : ∀ p ∈ peers, ∃ c,
      w.rankRound (snapshotAt peers) (peers.map Peer.rank) now round p.rank = (.active, c) ∧
        p.Holds (snapshotAt peers) (done.flatten ++ round) fun _ => c := by
    intro p hp
    rcases rankRound_cases hw h now hp with ⟨-, hok⟩ | ⟨hfull, -⟩
    · exact hok
    · exact absurd (hroom p hp) hfull
  constructor
  case active =>
    intro p hp
    obtain ⟨c, hc, -⟩ := hactive p hp
    simp only [World.step, hw.active p hp, if_true, hc]
  case groups =>
    intro p hp
    simp only [World.step, hw.active p hp, if_true, hw.groups p hp, length_append, length_singleton]
  case holds =>
    intro p hp
    obtain ⟨c, hc, hholds⟩ := hactive p hp
    have hcache : (w.step (snapshotAt peers) (peers.map Peer.rank) now round).caches p.rank = c := by
      simp only [World.step, hw.active p hp, if_true, hc]
    rw [hflatten]
    cases p with
    | sender => trivial
    | receiver rank =>
      simp only [Peer.Holds, Peer.rank] at hcache hholds ⊢
      rw [hcache]
      exact hholds

/-- The last round of a rank: it has opened one more group and is not blocked, and it has left the
loop if its cache has no room. -/
theorem step_of_inStep (hw : InStep peers done w) (h : Exchangeable peers (done.flatten ++ round))
    (now : ℚ) {p : Peer} (hp : p ∈ peers) :
    let w' := w.step (snapshotAt peers) (peers.map Peer.rank) now round
    w'.groups p.rank = done.length + 1 ∧ w'.status p.rank ≠ .blocked ∧
      (¬ p.HasRoom (done.flatten ++ round) → w'.status p.rank ≠ .active) := by
  intro w'
  have hstatus : w'.status p.rank =
      (w.rankRound (snapshotAt peers) (peers.map Peer.rank) now round p.rank).1 :=
    if_pos (hw.active p hp)
  have hgroups : w'.groups p.rank = w.groups p.rank + 1 := if_pos (hw.active p hp)
  rw [hgroups, hw.groups p hp, hstatus]
  rcases rankRound_cases hw h now hp with ⟨hroom, c, hc, -⟩ | ⟨-, e, c, hc⟩
  · rw [hc]
    exact ⟨rfl, by simp, fun hfull => absurd hroom hfull⟩
  · rw [hc]
    exact ⟨rfl, by simp, by simp⟩

end Step

/-! ## Runs -/

section Runs

variable {peers : List Peer} {rounds done : List (List TransferOp)}

theorem inStep_init {ops : List TransferOp} (h : Exchangeable peers ops) :
    InStep peers [] (.init peers ops) := by
  constructor
  case active =>
    intro p _
    simp only [World.init, staleOp_eq_none h.served]
  case groups =>
    intro p _
    rfl
  case holds =>
    intro p hp
    cases p with
    | sender => trivial
    | receiver rank needed discard allowMissing tokenRanges cacheRx =>
      have hfind : (peers.find? fun q => q.rank = rank) =
          some (.receiver rank needed discard allowMissing tokenRanges cacheRx) :=
        find?_rank h.ranks hp
      simp only [Peer.Holds, World.init, hfind]
      exact rxHolds_clear cacheRx

theorem Peer.HasRoom.of_append {a b : List TransferOp} (h : Exchangeable peers (a ++ b)) {p : Peer}
    (hroom : p.HasRoom (a ++ b)) : p.HasRoom a := by
  cases p with
  | sender => trivial
  | receiver rank needed discard allowMissing tokenRanges cacheRx =>
    refine le_trans ?_ hroom
    rw [receivedBy_append]
    apply tallyBytes_append_le
    intro x hx y hy hsid
    rw [← receivedBy_append] at hx hy
    obtain ⟨hx, hxr⟩ := mem_filter.mp hx
    obtain ⟨hy, hyr⟩ := mem_filter.mp hy
    have hrecv : x.recvRank = y.recvRank := by
      rw [of_decide_eq_true hxr, of_decide_eq_true hyr]
    rw [h.same x hx y hy hrecv hsid]

/-- While every cache has room, all ranks are in the loop and the receivers hold what they were
sent. -/
theorem inStep_run (h : Exchangeable peers rounds.flatten) (now : ℚ) (hdone : done <+: rounds)
    (hroom : ∀ p ∈ peers, p.HasRoom done.flatten) :
    InStep peers done (done.foldl (World.step (snapshotAt peers) (peers.map Peer.rank) now)
      (.init peers rounds.flatten)) := by
  induction done using List.reverseRecOn with
  | nil => exact inStep_init h
  | append_singleton done round ih =>
    have hflatten : (done ++ [round]).flatten = done.flatten ++ round := by simp
    have hdone' : done <+: rounds := (prefix_append _ _).trans hdone
    have hsub : Exchangeable peers (done.flatten ++ round) := by
      obtain ⟨rest, rfl⟩ := hdone
      apply h.mono
      rw [flatten_append, hflatten]
      exact subset_append_left _ _
    rw [hflatten] at hroom
    rw [foldl_append]
    exact inStep_step (ih hdone' fun p hp => (hroom p hp).of_append hsub) hsub now hroom

theorem groups_of_not_active {w : World} {p : Nat} (hp : w.status p ≠ .active)
    (snapshots : Nat → Dict String Capture) (ranks : List Nat) (now : ℚ)
    (rest : List (List TransferOp)) :
    ((rest.foldl (World.step snapshots ranks now) w).groups p) = w.groups p := by
  induction rest generalizing w with
  | nil => rfl
  | cons round rest ih =>
    have hstatus : (w.step snapshots ranks now round).status p = w.status p := if_neg hp
    have hgroups : (w.step snapshots ranks now round).groups p = w.groups p := if_neg hp
    rw [foldl_cons, ih (by rwa [hstatus]), hgroups]

/-- A rank that opens a group for every round had room in all rounds but the last. -/
theorem hasRoom_of_groups (h : Exchangeable peers rounds.flatten) (now : ℚ)
    (hall : ∀ p ∈ peers, (runExchange peers now rounds).groups p.rank = rounds.length)
    (hdone : done <+: rounds) (hshort : done.length < rounds.length) :
    ∀ p ∈ peers, p.HasRoom done.flatten := by
  induction done using List.reverseRecOn with
  | nil =>
    intro p _
    cases p with
    | sender => trivial
    | receiver => exact zero_le
  | append_singleton done round ih =>
    have hflatten : (done ++ [round]).flatten = done.flatten ++ round := by simp
    rw [length_append, length_singleton] at hshort
    have hdone' : done <+: rounds := (prefix_append _ _).trans hdone
    have hin := inStep_run h now hdone' (ih hdone' (by omega))
    obtain ⟨rest, hrest⟩ := hdone
    have hsub : Exchangeable peers (done.flatten ++ round) := by
      apply h.mono
      rw [← hrest, flatten_append, hflatten]
      exact subset_append_left _ _
    intro p hp
    rw [hflatten]
    by_contra hfull
    obtain ⟨hgroups, -, hleft⟩ := step_of_inStep hin hsub now hp
    -- The rank has left the loop behind this round, and there are more rounds.
    have hstuck := groups_of_not_active (hleft hfull) (snapshotAt peers) (peers.map Peer.rank) now
      rest
    have hrun : runExchange peers now rounds =
        rest.foldl (World.step (snapshotAt peers) (peers.map Peer.rank) now)
          ((done.foldl (World.step (snapshotAt peers) (peers.map Peer.rank) now)
            (.init peers rounds.flatten)).step (snapshotAt peers) (peers.map Peer.rank) now round) := by
      rw [runExchange]
      nth_rewrite 2 [← hrest]
      rw [foldl_append, foldl_append]
      rfl
    have := hall p hp
    rw [hrun, hstuck, hgroups] at this
    omega

end Runs

/-! ## Main results -/

/-- The operations from `s` to `r`. -/
def between (s r : Nat) (ops : List TransferOp) : List TransferOp := receivedBy r (ofSender s ops)

/-- What a receiver holds at the end: the requested slice of every planned id, and nothing else. -/
def HoldsRequested (snapshots : Nat → Dict String Capture) (plan : List TransferOp) (rank : Nat)
    (c : Cache Capture) : Prop :=
  (∀ op ∈ receivedBy rank plan, ∃ source dest,
    (snapshots op.senderRank).get? op.sampleId = some source ∧
    c.data.get? op.sampleId = some dest ∧ dest.shape = op.transferShape ∧
    dest.dtype = source.dtype ∧ dest.bytes = source.payload op.tokenRange) ∧
  ∀ sid dest, c.data.get? sid = some dest → ∃ op ∈ receivedBy rank plan, op.sampleId = sid

theorem holdsRequested_of_rxHolds {snapshots : Nat → Dict String Capture} {maxBytes rank : Nat}
    {plan ops : List TransferOp} {c : Cache Capture} (hperm : ops.Perm plan)
    (hserved : ∀ op ∈ plan, ∃ source, Served snapshots op source)
    (hc : RxHolds snapshots maxBytes (receivedBy rank ops) c) :
    HoldsRequested snapshots plan rank c := by
  have hreceived : (receivedBy rank ops).Perm (receivedBy rank plan) := hperm.filter _
  constructor
  · intro op hop
    obtain ⟨source, hsource⟩ := hserved op (mem_of_mem_filter hop)
    obtain ⟨dest, hdest, hget⟩ := hc.data op (hreceived.mem_iff.mpr hop)
    obtain ⟨dest', hdest', hshape, hdtype, hbytes, -⟩ := fillDest_wire hsource
    have hsame : dest = dest' := Option.some.inj (hdest.symm.trans hdest')
    subst hsame
    exact ⟨source, dest, hsource.found, hget, hshape, hdtype.trans hsource.dtype.symm, hbytes⟩
  · intro sid dest hget
    obtain ⟨op, hop, hsid⟩ := hc.nothingElse sid dest hget
    exact ⟨op, hreceived.mem_iff.mp hop, hsid⟩

theorem planRounds_exists_last (manifests : List PerRankManifest) (plan : List TransferOp) :
    planRounds manifests plan ≠ [] := by
  intro hnil
  have hperm := planRounds_perm manifests plan
  rw [hnil, flatten_nil] at hperm
  rw [nil_perm.mp hperm, planRounds_nil] at hnil
  cases hnil

theorem between_eq_of_ofSender {a b : List TransferOp} {s : Nat} (h : ofSender s a = ofSender s b)
    (r : Nat) : between s r a = between s r b := by
  rw [between, between, h]

/-- The rounds of a plan are a permutation of it that keeps the order of each sender, and of each
sender and receiver; no round is empty, unless the plan is; and a sender stages no more than the
budget in a round, or one operation with bytes.  When the ranks run the rounds, all sends match
their receives, and receivers that have room end with what they asked for. -/
theorem exchange_rounds_correct :
    (∀ manifests plan, (planRounds manifests plan).flatten.Perm plan ∧
      (∀ s, ofSender s (planRounds manifests plan).flatten = ofSender s plan) ∧
      (∀ s r, between s r (planRounds manifests plan).flatten = between s r plan) ∧
      (plan ≠ [] → ∀ round ∈ planRounds manifests plan, round ≠ []) ∧
      (plan = [] → planRounds manifests plan = [[]]) ∧
      ∀ budget, roundBudget manifests = some budget →
        ∀ round ∈ planRounds manifests plan, ∀ s, WithinBudget budget (ofSender s round)) ∧
    ∀ (peers : List Peer) (now : ℚ) (plan : List TransferOp) (missing : Finset String)
      (rounds : List (List TransferOp)), (peers.map Peer.rank).Nodup →
      exchangeManifest (peers.map Peer.manifest) = .ok (plan, missing, rounds) →
      (∀ round ∈ rounds, ∀ s r, Matched (snapshotAt peers) round s r) ∧
      ((∀ p ∈ peers, p.HasRoom rounds.flatten) →
        ∀ p ∈ peers, (runExchange peers now rounds).status p.rank = .active ∧
          (p.manifest.role = .receiver → HoldsRequested (snapshotAt peers) plan p.rank
              ((runExchange peers now rounds).caches p.rank))) := by
  constructor
  · intro manifests plan
    have horder := planRounds_order manifests plan
    refine ⟨planRounds_perm manifests plan, horder, ?_, planRounds_ne_nil manifests, ?_, ?_⟩
    · intro s r
      exact between_eq_of_ofSender (horder s) r
    · rintro rfl
      exact planRounds_nil manifests
    · intro budget hbudget
      exact planRounds_withinBudget hbudget plan
  · intro peers now plan missing rounds hranks h
    obtain ⟨hplan, rfl⟩ := exchangeManifest_eq_ok h
    have hperm := planRounds_perm (peers.map Peer.manifest) plan
    have hexchange := (exchangeable_of_plan hranks hplan).mono hperm.subset
    constructor
    · intro round hround
      apply matched_of_served
      intro op hop
      exact hexchange.served op (mem_flatten.mpr ⟨round, hround, hop⟩)
    · intro hroom p hp
      have hend := inStep_run hexchange now (prefix_refl _) hroom
      refine ⟨hend.active p hp, ?_⟩
      intro hrole
      have hholds := hend.holds p hp
      cases p with
      | sender => cases hrole
      | receiver rank =>
        exact holdsRequested_of_rxHolds hperm (served_of_plan hranks hplan) hholds

/-- An array of two bytes. -/
def twoBytes : Capture := ⟨[2, 1], .uint8, [7, 9], .inl rfl, rfl⟩

/-- A transfer of two bytes to rank 0. -/
def twoByteOp (senderRank : Nat) (sampleId : String) : TransferOp :=
  ⟨senderRank, 0, sampleId, [2, 1], true, .uint8, none⟩

/-- A receiver that asks for two ids of one sender and then for one of another. -/
def twoSenders : List Peer :=
  [.receiver 0 ["a", "b", "c"] true false none ⟨.init 6 none, rfl⟩,
    .sender 1 ((Dict.empty.set "a" twoBytes).set "b" twoBytes) (some 2),
    .sender 2 (Dict.empty.set "c" twoBytes) (some 2)]

theorem exchangeManifest_twoSenders :
    exchangeManifest (twoSenders.map Peer.manifest) =
      .ok ([twoByteOp 1 "a", twoByteOp 1 "b", twoByteOp 2 "c"], ∅,
        [[twoByteOp 1 "a", twoByteOp 2 "c"], [twoByteOp 1 "b"]]) := by
  rfl

/-- The rounds do not keep the order of a receiver: the second sender's array comes in the first
round. -/
theorem planRounds_reorders_receiver :
    ¬ ∀ (manifests : List PerRankManifest) (plan : List TransferOp) (budget : Nat), 0 < budget →
      roundBudget manifests = some budget →
      ∀ r, receivedBy r (planRounds manifests plan).flatten = receivedBy r plan := by
  intro h
  have := h (twoSenders.map Peer.manifest) [twoByteOp 1 "a", twoByteOp 1 "b", twoByteOp 2 "c"] 2
    (by decide) rfl 0
  revert this
  decide

/-- The receiver of two senders ends with all three arrays. -/
theorem exchange_rounds_correct_twoSenders :
    (runExchange twoSenders 0 [[twoByteOp 1 "a", twoByteOp 2 "c"], [twoByteOp 1 "b"]]).status 0 =
        .active ∧
      HoldsRequested (snapshotAt twoSenders) [twoByteOp 1 "a", twoByteOp 1 "b", twoByteOp 2 "c"] 0
        ((runExchange twoSenders 0
          [[twoByteOp 1 "a", twoByteOp 2 "c"], [twoByteOp 1 "b"]]).caches 0) := by
  have hroom : ∀ p ∈ twoSenders,
      p.HasRoom [twoByteOp 1 "a", twoByteOp 2 "c", twoByteOp 1 "b"] := by decide
  have hend := (exchange_rounds_correct.2 twoSenders 0 _ _ _ (by decide)
    exchangeManifest_twoSenders).2 hroom _ mem_cons_self
  exact ⟨hend.1, hend.2 rfl⟩

/-- Every rank runs all rounds, and is not blocked in one, exactly when the RX caches have room for
what they are sent in all rounds but the last. -/
theorem exchange_rounds_equal_iff {peers : List Peer} (now : ℚ) {plan : List TransferOp}
    {missing : Finset String} {rounds : List (List TransferOp)}
    (hranks : (peers.map Peer.rank).Nodup)
    (h : exchangeManifest (peers.map Peer.manifest) = .ok (plan, missing, rounds)) :
    (∀ p ∈ peers, (runExchange peers now rounds).groups p.rank = rounds.length ∧
      (runExchange peers now rounds).status p.rank ≠ .blocked) ↔
    ∀ p ∈ peers, p.HasRoom rounds.dropLast.flatten := by
  obtain ⟨hplan, rfl⟩ := exchangeManifest_eq_ok h
  have hne := planRounds_exists_last (peers.map Peer.manifest) plan
  have hexchange := (exchangeable_of_plan hranks hplan).mono
    (planRounds_perm (peers.map Peer.manifest) plan).subset
  generalize planRounds (peers.map Peer.manifest) plan = rounds at hne hexchange
  obtain ⟨front, last, rfl⟩ : ∃ front last, rounds = front ++ [last] :=
    ⟨rounds.dropLast, rounds.getLast hne, (dropLast_append_getLast hne).symm⟩
  rw [dropLast_concat]
  constructor
  · intro hall
    apply hasRoom_of_groups hexchange now (fun p hp => (hall p hp).1) (prefix_append _ _)
    simp
  · intro hroom p hp
    have hin := inStep_run hexchange now (prefix_append _ _) hroom
    have hlast : Exchangeable peers (front.flatten ++ last) := by simpa using hexchange
    obtain ⟨hgroups, hblocked, -⟩ := step_of_inStep hin hlast now hp
    rw [runExchange, foldl_append, length_append, length_singleton]
    exact ⟨hgroups, hblocked⟩

/-- A sender of two ids in two rounds, and a receiver with an RX cache of a given size. -/
def twoRounds (maxBytes : Nat) : List Peer :=
  [.receiver 0 ["a", "b"] true false none ⟨.init maxBytes none, rfl⟩,
    .sender 1 ((Dict.empty.set "a" twoBytes).set "b" twoBytes) (some 2)]

theorem exchangeManifest_twoRounds (maxBytes : Nat) :
    exchangeManifest ((twoRounds maxBytes).map Peer.manifest) =
      .ok ([twoByteOp 1 "a", twoByteOp 1 "b"], ∅, [[twoByteOp 1 "a"], [twoByteOp 1 "b"]]) := by
  rfl

/-- A receiver whose cache refuses the array of the first round leaves the loop there, and its
sender is blocked in the second round. -/
theorem receiver_leaves_early :
    ¬ ∀ (peers : List Peer) (now : ℚ) (plan : List TransferOp) (missing : Finset String)
      (rounds : List (List TransferOp)), (peers.map Peer.rank).Nodup →
      exchangeManifest (peers.map Peer.manifest) = .ok (plan, missing, rounds) →
      ∀ p ∈ peers, (runExchange peers now rounds).groups p.rank = rounds.length ∧
        (runExchange peers now rounds).status p.rank ≠ .blocked := by
  intro h
  have hsender := h (twoRounds 1) 0 _ _ _ (by decide) (exchangeManifest_twoRounds 1)
    (.sender 1 ((Dict.empty.set "a" twoBytes).set "b" twoBytes) (some 2)) (by simp [twoRounds])
  exact hsender.2 rfl

/-- A receiver whose cache refuses the array of the last round has run all rounds. -/
theorem exchange_rounds_equal_iff_twoRounds :
    (∀ p ∈ twoRounds 2,
      (runExchange (twoRounds 2) 0 [[twoByteOp 1 "a"], [twoByteOp 1 "b"]]).groups p.rank = 2 ∧
        (runExchange (twoRounds 2) 0 [[twoByteOp 1 "a"], [twoByteOp 1 "b"]]).status p.rank ≠
          .blocked) ∧
      (runExchange (twoRounds 2) 0 [[twoByteOp 1 "a"], [twoByteOp 1 "b"]]).status 0 =
        .refused (.full 4 2 "b") := by
  have hroom : ∀ p ∈ twoRounds 2, p.HasRoom [twoByteOp 1 "a"] := by decide
  exact ⟨(exchange_rounds_equal_iff 0 (by decide) (exchangeManifest_twoRounds 2)).mpr hroom, rfl⟩

end ArcticPlatform.RouterReplay
