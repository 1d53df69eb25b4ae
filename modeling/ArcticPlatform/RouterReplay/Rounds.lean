import ArcticPlatform.RouterReplay.Plan

/-!
# Router replay: rounds of a plan

Each sender fills its rounds one after the other, all senders share the list of
rounds.  The rounds are the plan again, with the order of each sender kept.

Main results:

- Theorem `planRounds_perm`, `planRounds_order`: the rounds are a
  rearrangement of the plan that keeps each sender's order.
- Theorem `planRounds_ne_nil`: no round of a plan that is not empty is empty.
- Theorem `planRounds_withinBudget`: what a sender stages in a round.
-/

namespace ArcticPlatform.RouterReplay

open List Function

/-! ## Placing an operation -/

/-- The operations of a sender. -/
def ofSender (s : Nat) (ops : List TransferOp) : List TransferOp :=
  ops.filter fun op => op.senderRank = s

/-- Bytes of operations. -/
def bytesOf (ops : List TransferOp) : Nat := (ops.map TransferOp.nbytes).sum

/-- Operations within the budget, or a single one with bytes. -/
def WithinBudget (budget : Nat) (ops : List TransferOp) : Prop :=
  bytesOf ops ≤ budget ∨ (ops.filter fun op => 0 < op.nbytes).length = 1

@[simp] theorem ofSender_nil (s : Nat) : ofSender s [] = [] := rfl

theorem ofSender_append (s : Nat) (a b : List TransferOp) :
    ofSender s (a ++ b) = ofSender s a ++ ofSender s b := filter_append a b

theorem ofSender_singleton (s : Nat) (op : TransferOp) :
    ofSender s [op] = if op.senderRank = s then [op] else [] := by
  by_cases h : op.senderRank = s <;> simp [ofSender, h]

theorem filter_pos_of_bytesOf_eq_zero {ops : List TransferOp} (h : bytesOf ops = 0) :
    (ops.filter fun op => 0 < op.nbytes) = [] := by
  rw [filter_eq_nil_iff]
  intro op hop hpos
  have hle : op.nbytes ≤ bytesOf ops := single_le_sum (by simp) _ (mem_map_of_mem hop)
  have := of_decide_eq_true hpos
  omega

variable {budget : Nat}

theorem withinBudget_snoc {ops : List TransferOp} {op : TransferOp}
    (hfit : ¬ (bytesOf ops > 0 ∧ bytesOf ops + op.nbytes > budget)) :
    WithinBudget budget (ops ++ [op]) := by
  have hsum : bytesOf (ops ++ [op]) = bytesOf ops + op.nbytes := by simp [bytesOf]
  by_cases hzero : bytesOf ops = 0
  · by_cases hbig : op.nbytes ≤ budget
    · left
      omega
    · right
      rw [filter_append, filter_pos_of_bytesOf_eq_zero hzero, nil_append, filter_singleton]
      simp [show 0 < op.nbytes by omega]
  · left
    omega

theorem modify_extend (rounds : List (List TransferOp)) (op : TransferOp) (i : Nat)
    (hi : i ≤ rounds.length) :
    ∃ front round back, (rounds ++ List.replicate (i + 1 - rounds.length) []).modify i (· ++ [op]) =
        front ++ (round ++ [op]) :: back ∧ front.length = i ∧
      ((rounds = front ++ round :: back) ∨ (rounds = front ∧ round = [] ∧ back = [])) := by
  rcases Nat.lt_or_eq_of_le hi with hlt | heq
  · refine ⟨rounds.take i, rounds.get ⟨i, hlt⟩, rounds.drop (i + 1), ?_, ?_, .inl ?_⟩
    · have hnone : i + 1 - rounds.length = 0 := by omega
      rw [hnone, replicate_zero, append_nil, modify_eq_take_cons_drop hlt]
      rfl
    · simp [min_eq_left (le_of_lt hlt)]
    · simp
  · refine ⟨rounds, [], [], ?_, heq.symm, .inr ⟨rfl, rfl, rfl⟩⟩
    have hone : i + 1 - rounds.length = 1 := by omega
    rw [hone, heq, modify_eq_take_cons_drop (by simp)]
    simp

/-! ## The rounds under a budget -/

/-- What each sender has in each round. -/
def byRound (s : Nat) (rounds : List (List TransferOp)) : List (List TransferOp) :=
  rounds.map (ofSender s)

/-- The rounds and positions after the operations `done`. -/
structure Filled (budget : Nat) (done : List TransferOp) (s : RoundState) : Prop where
  bound : ∀ a, (s.position a).1 ≤ s.rounds.length
  used : ∀ a, (s.position a).2 = bytesOf ((byRound a s.rounds)[(s.position a).1]?.getD [])
  later : ∀ a, ((byRound a s.rounds).drop ((s.position a).1 + 1)).flatten = []
  nonempty : ∀ round ∈ s.rounds, round ≠ []
  perm : s.rounds.flatten.Perm done
  order : ∀ a, (byRound a s.rounds).flatten = ofSender a done
  budget : ∀ a, ∀ ops ∈ byRound a s.rounds, WithinBudget budget ops

theorem filled_init (budget : Nat) : Filled budget [] ⟨[], fun _ => (0, 0)⟩ := by
  constructor <;> simp [byRound, bytesOf]

variable {done : List TransferOp} {s : RoundState}

theorem slotOf_le (hs : Filled budget done s) (op : TransferOp) :
    (slotOf budget (s.position op.senderRank) op).1 ≤ s.rounds.length := by
  have hbound := hs.bound op.senderRank
  have hused := hs.used op.senderRank
  unfold slotOf
  split
  · rename_i hnext
    -- A round with bytes exists.
    rcases Nat.lt_or_eq_of_le hbound with hlt | heq
    · exact hlt
    · have hzero : (s.position op.senderRank).2 = 0 := by
        rw [hused, heq]
        simp [byRound, bytesOf]
      omega
  · exact hbound

theorem slotOf_content (hs : Filled budget done s) (op : TransferOp) :
    let slot := slotOf budget (s.position op.senderRank) op
    let mine := byRound op.senderRank s.rounds
    slot.2 = bytesOf (mine[slot.1]?.getD []) ∧ (mine.drop (slot.1 + 1)).flatten = [] ∧
      ¬ (bytesOf (mine[slot.1]?.getD []) > 0 ∧
        bytesOf (mine[slot.1]?.getD []) + op.nbytes > budget) := by
  intro slot mine
  have hused := hs.used op.senderRank
  have hlater := hs.later op.senderRank
  simp only [slot, slotOf]
  split
  · -- The next round has nothing of the sender yet.
    rename_i hnext
    have hempty : mine[(s.position op.senderRank).1 + 1]?.getD [] = [] := by
      cases hget : mine[(s.position op.senderRank).1 + 1]? with
      | none => rfl
      | some ops =>
        have hmem : ops ∈ mine.drop ((s.position op.senderRank).1 + 1) := by
          rw [mem_iff_getElem?]
          exact ⟨0, by rw [getElem?_drop]; simpa using hget⟩
        exact flatten_eq_nil_iff.mp hlater ops hmem
    refine ⟨by simp [hempty, bytesOf], ?_, by simp [hempty, bytesOf]⟩
    rw [flatten_eq_nil_iff] at hlater ⊢
    intro ops hops
    apply hlater
    rw [← drop_drop] at hops
    exact mem_of_mem_drop hops
  · rename_i hstay
    refine ⟨hused, hlater, ?_⟩
    rw [← hused]
    exact hstay

/-- The rounds, split at a slot that is one of them or the next one. -/
def SplitAt (rounds front : List (List TransferOp)) (round : List TransferOp)
    (back : List (List TransferOp)) : Prop :=
  rounds = front ++ round :: back ∨ (rounds = front ∧ round = [] ∧ back = [])

section SplitAt

variable {rounds front back : List (List TransferOp)} {round : List TransferOp}

section

variable (h : SplitAt rounds front round back)
include h

theorem SplitAt.flatten_eq : rounds.flatten = front.flatten ++ round ++ back.flatten := by
  rcases h with rfl | ⟨rfl, rfl, rfl⟩ <;> simp

theorem SplitAt.byRound (a : Nat) :
    SplitAt (byRound a rounds) (byRound a front) (ofSender a round) (byRound a back) := by
  rcases h with rfl | ⟨rfl, rfl, rfl⟩
  · left
    simp [RouterReplay.byRound]
  · right
    exact ⟨rfl, rfl, rfl⟩

theorem SplitAt.getElem?_getD : rounds[front.length]?.getD [] = round := by
  rcases h with rfl | ⟨rfl, rfl, rfl⟩ <;> simp

theorem SplitAt.drop_eq : rounds.drop (front.length + 1) = back := by
  rcases h with rfl | ⟨rfl, rfl, rfl⟩ <;> simp

theorem SplitAt.mem {r : List TransferOp} (hr : r ∈ front ∨ r ∈ back) : r ∈ rounds := by
  rcases h with rfl | ⟨rfl, -, rfl⟩
  · simp only [mem_append, mem_cons]
    tauto
  · simpa using hr

/-- A split list and the list with the slot as one of its rounds agree up to an empty last round. -/
theorem SplitAt.agree :
    (∀ p : Nat, (front ++ round :: back)[p]?.getD [] = rounds[p]?.getD []) ∧
    ∀ p : Nat, (rounds.drop p).flatten = [] → ((front ++ round :: back).drop p).flatten = [] := by
  rcases h with rfl | ⟨rfl, rfl, rfl⟩
  · exact ⟨fun _ => rfl, fun _ h => h⟩
  · constructor
    · intro p
      rcases lt_trichotomy p rounds.length with hlt | heq | hgt
      · rw [getElem?_append_left hlt]
      · simp [heq]
      · rw [getElem?_eq_none (by simp; omega), getElem?_eq_none (by omega)]
    · intro p hp
      rw [drop_append, flatten_append, hp, nil_append, flatten_eq_nil_iff]
      intro ops hops
      simpa using mem_of_mem_drop hops

end

end SplitAt

/-- Placing one operation. -/
theorem filled_place (hs : Filled budget done s) (op : TransferOp) :
    Filled budget (done ++ [op]) (s.place budget op) := by
  obtain ⟨hused, hlater, hfit⟩ := slotOf_content hs op
  obtain ⟨front, round, back, hmodify, hfront, hsplit⟩ :=
    modify_extend s.rounds op _ (slotOf_le hs op)
  have hsplit : SplitAt s.rounds front round back := hsplit
  have hrounds : (s.place budget op).rounds = front ++ (round ++ [op]) :: back := hmodify
  have hposition : (s.place budget op).position = Function.update s.position op.senderRank
      ((slotOf budget (s.position op.senderRank) op).1,
        (slotOf budget (s.position op.senderRank) op).2 + op.nbytes) := rfl
  have hlength : ∀ a, (byRound a front).length = front.length := fun a => by simp [byRound]
  -- What a sender has after the placement.
  have hmine : ∀ a, byRound a (s.place budget op).rounds =
      byRound a front ++ ofSender a (round ++ [op]) :: byRound a back := by
    intro a
    rw [hrounds]
    simp [byRound]
  have hother : ∀ a, a ≠ op.senderRank → ofSender a (round ++ [op]) = ofSender a round := by
    intro a ha
    rw [ofSender_append, ofSender_singleton, if_neg (Ne.symm ha), append_nil]
  have hself : ofSender op.senderRank (round ++ [op]) = ofSender op.senderRank round ++ [op] := by
    rw [ofSender_append, ofSender_singleton, if_pos rfl]
  have hslot : (byRound op.senderRank s.rounds)[(slotOf budget (s.position op.senderRank) op).1]?.getD
      [] = ofSender op.senderRank round := by
    rw [← hfront, ← hlength op.senderRank]
    exact (hsplit.byRound op.senderRank).getElem?_getD
  have hback : (byRound op.senderRank back).flatten = [] := by
    rw [← hfront, ← hlength op.senderRank, (hsplit.byRound op.senderRank).drop_eq] at hlater
    exact hlater
  rw [hslot] at hused hfit
  constructor
  case bound =>
    intro a
    have hle : s.rounds.length ≤ (s.place budget op).rounds.length := by
      rw [hrounds]
      rcases hsplit with h | ⟨h, -, -⟩ <;> simp [h]
    by_cases ha : a = op.senderRank
    · subst ha
      rw [hposition, update_self, hrounds, ← hfront]
      simp
    · rw [hposition, update_of_ne ha]
      exact le_trans (hs.bound a) hle
  case used =>
    intro a
    rw [hmine, hposition]
    by_cases ha : a = op.senderRank
    · subst ha
      rw [update_self, ← hfront, ← hlength op.senderRank, hself]
      simp [hused, bytesOf]
    · rw [update_of_ne ha, hother a ha, (hsplit.byRound a).agree.1]
      exact hs.used a
  case later =>
    intro a
    rw [hmine, hposition]
    by_cases ha : a = op.senderRank
    · subst ha
      rw [update_self, ← hfront, ← hlength op.senderRank]
      simpa using hback
    · rw [update_of_ne ha, hother a ha]
      exact (hsplit.byRound a).agree.2 _ (hs.later a)
  case nonempty =>
    intro r hr
    rw [hrounds, mem_append, mem_cons] at hr
    rcases hr with hr | rfl | hr
    · exact hs.nonempty r (hsplit.mem (.inl hr))
    · simp
    · exact hs.nonempty r (hsplit.mem (.inr hr))
  case perm =>
    have hperm := hs.perm
    rw [hsplit.flatten_eq] at hperm
    rw [hrounds, flatten_append, flatten_cons]
    have hassoc : front.flatten ++ (round ++ [op] ++ back.flatten) =
        front.flatten ++ round ++ ([op] ++ back.flatten) := by simp
    have hswap : (front.flatten ++ round ++ ([op] ++ back.flatten)).Perm
        (front.flatten ++ round ++ (back.flatten ++ [op])) := perm_append_comm.append_left _
    rw [hassoc]
    apply hswap.trans
    rw [← append_assoc]
    exact hperm.append_right [op]
  case order =>
    intro a
    have horder := hs.order a
    rw [(hsplit.byRound a).flatten_eq] at horder
    rw [hmine, flatten_append, flatten_cons, ofSender_append a done, ofSender_singleton, ← horder]
    by_cases ha : a = op.senderRank
    · subst ha
      rw [hself, hback, if_pos rfl]
      simp
    · rw [hother a ha, if_neg (Ne.symm ha)]
      simp
  case budget =>
    intro a ops hops
    rw [hmine, mem_append, mem_cons] at hops
    rcases hops with hops | rfl | hops
    · exact hs.budget a ops ((hsplit.byRound a).mem (.inl hops))
    · by_cases ha : a = op.senderRank
      · subst ha
        rw [hself]
        exact withinBudget_snoc hfit
      · rw [hother a ha]
        rcases hsplit.byRound a with h | ⟨-, h, -⟩
        · exact hs.budget a _ (by rw [h]; simp)
        · rw [h]
          exact .inl (by simp [bytesOf])
    · exact hs.budget a ops ((hsplit.byRound a).mem (.inr hops))

theorem filled_splitRounds (budget : Nat) (plan : List TransferOp) :
    Filled budget plan (plan.foldl (RoundState.place budget) ⟨[], fun _ => (0, 0)⟩) := by
  induction plan using List.reverseRecOn with
  | nil => exact filled_init budget
  | append_singleton plan op ih =>
    rw [foldl_append]
    exact filled_place ih op

/-! ## The rounds of a plan -/

theorem ofSender_flatten (a : Nat) (rounds : List (List TransferOp)) :
    ofSender a rounds.flatten = (byRound a rounds).flatten := by
  simp [ofSender, byRound, filter_flatten]
  rfl

variable (manifests : List PerRankManifest)

theorem planRounds_cases (plan : List TransferOp) :
    (planRounds manifests plan = [plan] ∧ (plan = [] ∨ roundBudget manifests = none)) ∨
    (plan ≠ [] ∧ ∃ budget, roundBudget manifests = some budget ∧
      planRounds manifests plan = splitRounds budget plan) := by
  unfold planRounds
  cases hbudget : roundBudget manifests with
  | none => exact .inl ⟨rfl, .inr rfl⟩
  | some budget =>
    by_cases hplan : plan = []
    · simp [hplan]
    · exact .inr ⟨hplan, budget, rfl, by simp [hplan]⟩

/-- The rounds are a rearrangement of the plan. -/
theorem planRounds_perm (plan : List TransferOp) :
    (planRounds manifests plan).flatten.Perm plan := by
  obtain ⟨h, -⟩ | ⟨-, budget, -, h⟩ := planRounds_cases manifests plan
  · simp [h]
  · rw [h]
    exact (filled_splitRounds budget plan).perm

/-- The rounds keep the order of each sender. -/
theorem planRounds_order (plan : List TransferOp) (a : Nat) :
    ofSender a (planRounds manifests plan).flatten = ofSender a plan := by
  obtain ⟨h, -⟩ | ⟨-, budget, -, h⟩ := planRounds_cases manifests plan
  · simp [h]
  · rw [h, ofSender_flatten]
    exact (filled_splitRounds budget plan).order a

/-- A plan that is not empty has no empty round. -/
theorem planRounds_ne_nil {plan : List TransferOp} (hplan : plan ≠ []) :
    ∀ round ∈ planRounds manifests plan, round ≠ [] := by
  obtain ⟨h, -⟩ | ⟨-, budget, -, h⟩ := planRounds_cases manifests plan
  · rw [h]
    simpa using hplan
  · rw [h]
    exact (filled_splitRounds budget plan).nonempty

theorem planRounds_nil : planRounds manifests [] = [[]] := by
  obtain ⟨h, -⟩ | ⟨h, -⟩ := planRounds_cases manifests []
  · exact h
  · exact absurd rfl h

/-- What a sender stages in a round is within the budget, or is one operation with bytes. -/
theorem planRounds_withinBudget {manifests : List PerRankManifest}
    (hbudget : roundBudget manifests = some budget) (plan : List TransferOp) :
    ∀ round ∈ planRounds manifests plan, ∀ a, WithinBudget budget (ofSender a round) := by
  intro round hround a
  obtain ⟨h, hplan | hnone⟩ | ⟨-, budget', hbudget', h⟩ := planRounds_cases manifests plan
  · rw [h, hplan, mem_singleton] at hround
    subst hround
    exact .inl (by simp [bytesOf])
  · rw [hbudget] at hnone
    cases hnone
  · rw [hbudget] at hbudget'
    cases hbudget'
    rw [h] at hround
    exact (filled_splitRounds budget plan).budget a _ (mem_map_of_mem hround)

end ArcticPlatform.RouterReplay
