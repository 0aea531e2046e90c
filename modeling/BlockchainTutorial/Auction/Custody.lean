import BlockchainTutorial.Auction.Solvency

namespace BlockchainTutorial.Auction

/-! The store and its escrows, called by anyone. An escrow does not look at who calls
it, and counts the vote of the account that it is given. -/

inductive Action where
  | store (call : Call)
  | escrow (info : CallInfo) (place : Nat) (side : Side) (caller : Address)

namespace Action

instance : Inhabited Action := ⟨.store default⟩

def sender : Action → Address
  | .store call => call.info.sender
  | .escrow info _ _ _ => info.sender

end Action

namespace Chain

/-- A function of an escrow, called without the store. -/
def callEscrow (store : EcommerceStore) (info : CallInfo) (place : Nat) (side : Side)
    (caller : Address) : Except String EcommerceStore := do
  require (info.value = 0) ""
  store.atEscrow (some place) fun escrow => escrow.call side (info.accepts 0) caller

/-- One call that does not revert, at the time of the last one or later. -/
def act (sha3 : Bytes → Bytes32) (chain : Chain) : Action → Option Chain
  | .store call => chain.step sha3 call
  | .escrow info place side caller =>
      if chain.time ≤ info.now then
        match callEscrow chain.store info place side caller with
        | .ok store => some ⟨store, info.now⟩
        | .error _ => none
      else none

/-- The escrow, the side and the account of the vote that an action casts. -/
def vote (chain : Chain) : Action → Option (Nat × Side × Address)
  | .store call =>
      match call.function with
      | .releaseAmountToSeller productId =>
          (chain.store.productEscrow.get productId).map (·, .release, call.info.sender)
      | .refundAmountToBuyer productId =>
          (chain.store.productEscrow.get productId).map (·, .refund, call.info.sender)
      | _ => none
  | .escrow _ place side caller => some (place, side, caller)

/-- The account itself sends a call for the side to the escrow. -/
def sends (n : Nat) (side : Side) (account : Address) (chain : Chain) (action : Action) :
    Prop :=
  action.sender = account ∧ ∃ caller, vote chain action = some (n, side, caller)

/-- The vote is that of the sender, or was counted before. -/
def OwnVote (chain : Chain) : Action → Prop
  | .store _ => True
  | .escrow info place side caller =>
      caller = info.sender ∨
        chain.store.escrows[place]?.any (fun escrow => (escrow.votes side).get caller) = true

instance (chain : Chain) : (action : Action) → Decidable (OwnVote chain action)
  | .store _ => inferInstanceAs (Decidable True)
  | .escrow .. => inferInstanceAs (Decidable (_ ∨ _))

/-- What an action does to the escrows. -/
inductive Casts (chain : Chain) (action : Action) : List Escrow → Prop
  | kept : Casts chain action chain.store.escrows
  | created (productId : Uint) (seller buyer arbiter : Address) (value : Uint) :
      Casts chain action
        (chain.store.escrows ++ [Escrow.create productId seller buyer arbiter value])
  | voted (n : Nat) (side : Side) (caller : Address) (accepts : Bool)
      (escrow escrow' : Escrow) (hvote : vote chain action = some (n, side, caller))
      (hescrow : chain.store.escrows[n]? = some escrow)
      (hcall : escrow.call side accepts caller = .ok escrow') :
      Casts chain action (chain.store.escrows.set n escrow')

theorem step_casts {sha3 : Bytes → Bytes32} {chain chain' : Chain} {call : Call}
    (h : chain.step sha3 call = some chain') :
    Casts chain (.store call) chain'.store.escrows := by
  have hran := step_ran h
  obtain ⟨info, function⟩ := call
  generalize chain'.store = store' at hran
  dsimp only at hran
  cases hran with
  | addProductToStore => exact .kept
  | bid _ _ _ hbids =>
      rw [hbids.eq]
      exact .kept
  | revealBid _ _ _ _ _ _ _ _ hreveals =>
      obtain ⟨_, _, rfl⟩ := hreveals.eq
      exact .kept
  | finalizeAuction _ _ _ _ hfinalized =>
      cases hfinalized with
      | unsold => exact .kept
      | sold => exact .created _ _ _ _ _
  | releaseAmountToSeller _ _ _ _ hplace hescrow hcall =>
      exact .voted _ .release _ _ _ _ (by simp [vote, hplace]) hescrow hcall
  | refundAmountToBuyer _ _ _ _ hplace hescrow hcall =>
      exact .voted _ .refund _ _ _ _ (by simp [vote, hplace]) hescrow hcall

theorem act_casts {sha3 : Bytes → Bytes32} {chain chain' : Chain} {action : Action}
    (h : chain.act sha3 action = some chain') : Casts chain action chain'.store.escrows := by
  cases action with
  | store call => exact step_casts h
  | escrow info place side caller =>
      simp only [act] at h
      split at h
      · split at h
        · rename_i store hcallEscrow
          cases h
          obtain ⟨_, hat⟩ := require_bind_eq_ok.mp hcallEscrow
          obtain ⟨n, escrow, escrow', hplace, hescrow, hcall, rfl⟩ :=
            EcommerceStore.atEscrow_eq_ok hat
          cases hplace
          exact .voted _ _ _ _ _ _ rfl hescrow hcall
        · cases h
      · cases h

/-- A vote that is not yet counted is that of the sender. -/
theorem OwnVote.caller_eq {chain : Chain} {action : Action} (h : OwnVote chain action)
    {n : Nat} {side : Side} {caller : Address} {escrow : Escrow}
    (hvote : vote chain action = some (n, side, caller))
    (hescrow : chain.store.escrows[n]? = some escrow)
    (hnew : (escrow.votes side).get caller = false) : action.sender = caller := by
  cases action with
  | store call =>
      unfold vote at hvote
      dsimp only at hvote
      split at hvote
      · obtain ⟨_, _, heq⟩ := Option.map_eq_some_iff.mp hvote
        cases heq
        rfl
      · obtain ⟨_, _, heq⟩ := Option.map_eq_some_iff.mp hvote
        cases heq
        rfl
      · cases hvote
  | escrow info place =>
      cases hvote
      rcases h with hown | hcounted
      · exact hown.symm
      · rw [hescrow, Option.any_some, hnew] at hcounted
        cases hcounted

end Chain

namespace Escrow

theorem recorded_voted {escrow : Escrow} {side other : Side} {caller voter : Address}
    (h : ((escrow.recorded side caller).votes other).get voter = true) :
    (escrow.votes other).get voter = true ∨ other = side ∧ voter = caller := by
  cases hold : (escrow.votes side).get caller with
  | true =>
      rw [recorded_of_voted hold] at h
      exact .inl h
  | false =>
      by_cases hother : other = side
      · subst hother
        by_cases hvoter : voter = caller
        · exact .inr ⟨rfl, hvoter⟩
        · rw [recorded_votes hold, Lib.Mapping.get_set_of_ne _ _ hvoter] at h
          exact .inl h
      · rw [Side.eq_other hother, recorded_votes_other] at h
        rw [Side.eq_other hother]
        exact .inl h

/-- A call adds no vote but the one of its caller. -/
theorem call_voted {escrow escrow' : Escrow} {side other : Side} {accepts : Bool}
    {caller voter : Address} (hcall : escrow.call side accepts caller = .ok escrow')
    (h : (escrow'.votes other).get voter = true) :
    (escrow.votes other).get voter = true ∨ other = side ∧ voter = caller := by
  obtain ⟨_, _, ⟨_, rfl⟩ | ⟨_, _, rfl⟩⟩ := call_eq_ok hcall
  · exact recorded_voted h
  · rw [paid_votes] at h
    exact recorded_voted h

variable {escrow : Escrow} {productId value : Uint} {seller buyer arbiter : Address}

theorem Accounted.two_voters (h : Accounted productId seller buyer arbiter value escrow)
    {side : Side} (hcount : 2 ≤ escrow.count side) :
    ∃ a b, a ≠ b ∧ a ∈ escrow.participants ∧ b ∈ escrow.participants ∧
      (escrow.votes side).get a = true ∧ (escrow.votes side).get b = true := by
  have htwo : 2 ≤ (escrow.participants.filter (escrow.votes side).get).length := by
    rw [← List.countP_eq_length_filter]
    calc 2
      _ ≤ (escrow.count side).toNat := hcount
      _ = escrow.voters side := h.count side
  have hnodup : (escrow.participants.filter (escrow.votes side).get).Nodup :=
    (List.nodup_dedup _).filter _
  have hmem : ∀ a, a ∈ escrow.participants.filter (escrow.votes side).get →
      a ∈ escrow.participants ∧ (escrow.votes side).get a = true :=
    fun a ha => List.mem_filter.mp ha
  match hvoters : escrow.participants.filter (escrow.votes side).get with
  | [] | [_] => simp [hvoters] at htwo
  | a :: b :: _ =>
      rw [hvoters] at hnodup hmem
      obtain ⟨ha, hvotedA⟩ := hmem a (by simp)
      obtain ⟨hb, hvotedB⟩ := hmem b (by simp)
      have hne : a ≠ b := fun heq => (List.nodup_cons.mp hnodup).1 (by simp [heq])
      exact ⟨a, b, hne, ha, hb, hvotedA, hvotedB⟩

/-- What was paid was paid to a side with two votes. -/
theorem Accounted.paid_side (h : Accounted productId seller buyer arbiter value escrow)
    {payment : Address × Uint} (hpayment : payment ∈ escrow.transfers) :
    ∃ side, 2 ≤ escrow.count side ∧ payment = (escrow.beneficiary side, escrow.amount) := by
  cases hdisbursed : escrow.fundsDisbursed with
  | false =>
      rw [(h.before hdisbursed).2] at hpayment
      cases hpayment
  | true =>
      obtain ⟨_, side, hcount, _, htransfers⟩ := h.after hdisbursed
      rw [htransfers, List.mem_singleton] at hpayment
      exact ⟨side, hcount, by rw [hpayment, h.created.2.2.2.2]⟩

end Escrow

section Runs

abbrev CustodyRun (sha3 : Bytes → Bytes32) := Lib.Run Chain.create (Chain.act sha3)

variable {sha3 : Bytes → Bytes32} (run : CustodyRun sha3)

/-- Two of the seller, the buyer and the arbiter have themselves sent a call for the side. -/
def TwoSent (n : Nat) (escrow : Escrow) (side : Side) (k : Nat) : Prop :=
  ∃ a b, a ≠ b ∧ a ∈ escrow.participants ∧ b ∈ escrow.participants ∧
    run.Before k (Chain.sends n side a) ∧ run.Before k (Chain.sends n side b)

/-- A payment is made for a side that two have called. When the seller is not the buyer,
who gets it tells which side that is. -/
structure Authorized (n : Nat) (escrow : Escrow) (k : Nat) : Prop where
  paid : ∀ payment ∈ escrow.transfers, ∃ side,
    payment = (escrow.beneficiary side, escrow.amount) ∧ TwoSent run n escrow side k
  reached : escrow.seller ≠ escrow.buyer → ∀ side, ∀ payment ∈ escrow.transfers,
    payment.1 = escrow.beneficiary side → TwoSent run n escrow side k

/-- The votes of an escrow were sent by the accounts that they are counted for. -/
structure Kept (n : Nat) (escrow : Escrow) (k : Nat) : Prop where
  accounted : ∃ productId seller buyer arbiter value,
    Escrow.Accounted productId seller buyer arbiter value escrow
  sent : ∀ side voter, (escrow.votes side).get voter = true →
    run.Before k (Chain.sends n side voter)

theorem kept_create (n : Nat) (productId : Uint) (seller buyer arbiter : Address)
    (value : Uint) (k : Nat) :
    Kept run n (Escrow.create productId seller buyer arbiter value) k where
  accounted := ⟨_, _, _, _, _, Escrow.accounted_create ..⟩
  sent side voter hvoted := by
    cases side <;> simp [Escrow.votes, Escrow.create] at hvoted

variable {run}

theorem Kept.mono {n : Nat} {escrow : Escrow} {j k : Nat} (h : Kept run n escrow j)
    (hle : j ≤ k) : Kept run n escrow k :=
  ⟨h.accounted, fun side voter hvoted => (h.sent side voter hvoted).mono hle⟩

theorem Kept.call {n k : Nat} {escrow escrow' : Escrow} {side : Side} {accepts : Bool}
    {caller : Address} (h : Kept run n escrow k) (hk : k < run.length)
    (hown : Chain.OwnVote (run.state k) (run.act k))
    (hvote : Chain.vote (run.state k) (run.act k) = some (n, side, caller))
    (hescrow : (run.state k).store.escrows[n]? = some escrow)
    (hcall : escrow.call side accepts caller = .ok escrow') : Kept run n escrow' (k + 1) := by
  obtain ⟨productId, seller, buyer, arbiter, value, haccounted⟩ := h.accounted
  refine ⟨⟨_, _, _, _, _, haccounted.call hcall⟩, ?_⟩
  intro other voter hvoted
  by_cases hold : (escrow.votes other).get voter = true
  · exact (h.sent other voter hold).mono (Nat.le_succ k)
  · obtain ⟨rfl, rfl⟩ := (Escrow.call_voted hcall hvoted).resolve_left hold
    have hsender := hown.caller_eq hvote hescrow (by simpa using hold)
    exact .now hk ⟨hsender, voter, hvote⟩

theorem Kept.authorized {n k : Nat} {escrow : Escrow} (h : Kept run n escrow k) :
    Authorized run n escrow k := by
  obtain ⟨productId, seller, buyer, arbiter, value, haccounted⟩ := h.accounted
  have htwo : ∀ side, 2 ≤ escrow.count side → TwoSent run n escrow side k := by
    intro side hcount
    obtain ⟨a, b, hne, ha, hb, hvotedA, hvotedB⟩ := haccounted.two_voters hcount
    exact ⟨a, b, hne, ha, hb, h.sent side a hvotedA, h.sent side b hvotedB⟩
  refine ⟨?_, ?_⟩
  · intro payment hpayment
    obtain ⟨side, hcount, heq⟩ := haccounted.paid_side hpayment
    exact ⟨side, heq, htwo side hcount⟩
  · intro hapart side payment hpayment hside
    obtain ⟨paidSide, hcount, rfl⟩ := haccounted.paid_side hpayment
    have hsame : paidSide = side := by
      cases paidSide <;> cases side
      · rfl
      · exact absurd hside hapart
      · exact absurd hside.symm hapart
      · rfl
    rw [← hsame]
    exact htwo paidSide hcount

theorem escrows_kept (hown : run.AllSteps Chain.OwnVote) : ∀ k, k ≤ run.length →
    ∀ n escrow, (run.state k).store.escrows[n]? = some escrow → Kept run n escrow k := by
  refine run.induct ?_ ?_
  · intro n escrow hescrow
    rw [run.starts] at hescrow
    simp [Chain.create, EcommerceStore.create] at hescrow
  · intro k hk ih n escrow hescrow
    have hcasts := Chain.act_casts (run.steps k hk)
    generalize (run.state (k + 1)).store.escrows = escrows at hcasts hescrow
    cases hcasts with
    | kept => exact (ih n escrow hescrow).mono (Nat.le_succ k)
    | created productId seller buyer arbiter value =>
        by_cases hold : n < (run.state k).store.escrows.length
        · rw [List.getElem?_append_left hold] at hescrow
          exact (ih n escrow hescrow).mono (Nat.le_succ k)
        · rw [List.getElem?_append_right (by omega), List.getElem?_singleton] at hescrow
          split at hescrow
          · cases hescrow
            exact kept_create ..
          · cases hescrow
    | voted m side caller accepts called called' hvote hcalled hcall =>
        by_cases hn : m = n
        · subst hn
          rw [List.getElem?_set_self (List.getElem?_eq_some_iff.mp hcalled).1] at hescrow
          cases hescrow
          exact (ih m called hcalled).call hk (hown k hk) hvote hcalled hcall
        · rw [List.getElem?_set_ne hn] at hescrow
          exact (ih n escrow hescrow).mono (Nat.le_succ k)

variable (run)

/-- When every account votes for itself, the amount goes where two of the three send it. -/
theorem escrow_authorized (hown : run.AllSteps Chain.OwnVote) : ∀ k, k ≤ run.length →
    ∀ n escrow, (run.state k).store.escrows[n]? = some escrow → Authorized run n escrow k :=
  fun k hk n escrow hescrow => (escrows_kept hown k hk n escrow hescrow).authorized

end Runs

section Sold

/-! Account 1 sells to account 2, and account 3 closes the auction. Then the seller and
the buyer release the amount, or account 9 calls the escrow for both of 1 and 3. -/

def soldActs : List Action :=
  [.store ⟨⟨1, 0, 10, fun _ => true, one_ne⟩, .addProductToStore [] [] [] [] 10 20 5 0⟩,
    .store ⟨⟨2, 30, 15, fun _ => true, two_ne⟩, .bid 1 (packed "20a".toUTF8.toList)⟩,
    .store ⟨⟨2, 0, 20, fun _ => true, two_ne⟩,
      .revealBid 1 "20".toUTF8.toList "a".toUTF8.toList⟩,
    .store ⟨⟨3, 0, 21, fun _ => true, three_ne⟩, .finalizeAuction 1⟩]

def agreedActs : List Action :=
  soldActs ++
    [.store ⟨⟨1, 0, 22, fun _ => true, one_ne⟩, .releaseAmountToSeller 1⟩,
      .store ⟨⟨2, 0, 23, fun _ => true, two_ne⟩, .releaseAmountToSeller 1⟩]

def forgedActs : List Action :=
  soldActs ++
    [.escrow ⟨9, 0, 22, fun _ => true, nine_ne⟩ 0 .release 1,
      .escrow ⟨9, 0, 23, fun _ => true, nine_ne⟩ 0 .release 3]

theorem agreedActs_exec : (Lib.exec (Chain.act packed) Chain.create agreedActs).isSome := by
  decide +kernel

theorem forgedActs_exec : (Lib.exec (Chain.act packed) Chain.create forgedActs).isSome := by
  decide +kernel

def agreedRun : CustodyRun packed := .ofActions agreedActs agreedActs_exec

def forgedRun : CustodyRun packed := .ofActions forgedActs forgedActs_exec

theorem agreedRun_own : agreedRun.AllSteps Chain.OwnVote := by
  decide +kernel

theorem escrow_authorized_agreed : ∃ escrow,
    (agreedRun.state 6).store.escrows[0]? = some escrow ∧ escrow.transfers = [(1, 5)] ∧
      Authorized agreedRun 0 escrow 6 := by
  have hpaid : (agreedRun.state 6).store.escrows[0]?.map Escrow.transfers = some [(1, 5)] := by
    decide +kernel
  obtain ⟨escrow, hescrow, htransfers⟩ := Option.map_eq_some_iff.mp hpaid
  exact ⟨escrow, hescrow, htransfers,
    escrow_authorized agreedRun agreedRun_own 6 (Nat.le_refl 6) 0 escrow hescrow⟩

theorem forgedRun_sender : ∀ j, j < 6 →
    Chain.vote (forgedRun.state j) (forgedRun.act j) = none ∨ (forgedRun.act j).sender = 9 := by
  decide +kernel

theorem escrow_unauthorized : ¬ ∀ run : CustodyRun packed, ∀ k, k ≤ run.length →
    ∀ n escrow, (run.state k).store.escrows[n]? = some escrow → Authorized run n escrow k := by
  intro hall
  have hpaid : (forgedRun.state 6).store.escrows[0]?.map
      (fun escrow => (escrow.seller, escrow.buyer, escrow.arbiter, escrow.transfers)) =
      some (1, 2, 3, [(1, 5)]) := by
    decide +kernel
  obtain ⟨escrow, hescrow, heq⟩ := Option.map_eq_some_iff.mp hpaid
  simp only [Prod.mk.injEq] at heq
  obtain ⟨hseller, hbuyer, harbiter, htransfers⟩ := heq
  have hapart : escrow.seller ≠ escrow.buyer := by
    rw [hseller, hbuyer]
    decide
  obtain ⟨a, _, _, ha, _, ⟨j, hj, _, hsender, _, hvote⟩, _⟩ :=
    (hall forgedRun 6 (Nat.le_refl 6) 0 escrow hescrow).reached hapart .release (1, 5)
      (by simp [htransfers]) hseller.symm
  have hnine : a = 9 := by
    rcases forgedRun_sender j hj with hnone | hforged
    · rw [hnone] at hvote
      cases hvote
    · rw [← hsender, hforged]
  rw [Escrow.mem_participants, hseller, hbuyer, harbiter, hnine] at ha
  exact absurd ha (by decide)

end Sold

end BlockchainTutorial.Auction
