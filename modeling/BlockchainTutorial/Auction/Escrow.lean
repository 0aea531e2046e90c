import Mathlib.Data.List.Dedup
import BlockchainTutorial.Lib.Mapping
import BlockchainTutorial.Lib.Run

namespace BlockchainTutorial.Auction

/-! `Escrow.sol`. Numbers are words of 256 bits, with their arithmetic. A call that
reverts gives its message and changes nothing. Events are left out. -/

abbrev Uint := BitVec 256

abbrev Address := BitVec 160

abbrev Bytes32 := BitVec 256

abbrev Bytes := List UInt8

def require (condition : Bool) (message : String) : Except String Unit :=
  if condition then .ok () else .error message

/-- `balance` is the ether of the contract, and `transfers` what it has sent. -/
structure Escrow where
  productId : Uint
  seller : Address
  buyer : Address
  arbiter : Address
  amount : Uint
  releaseAmount : Lib.Mapping Address Bool
  releaseCount : Uint
  refundAmount : Lib.Mapping Address Bool
  refundCount : Uint
  fundsDisbursed : Bool
  balance : Nat
  transfers : List (Address × Uint)

namespace Escrow

def create (productId : Uint) (seller buyer arbiter : Address) (value : Uint) : Escrow where
  productId
  seller
  buyer
  arbiter
  amount := value
  releaseAmount := ∅
  releaseCount := 0
  refundAmount := ∅
  refundCount := 0
  fundsDisbursed := false
  balance := value.toNat
  transfers := []

/-- The receiver may refuse, and has too little gas to call back. -/
def transfer (escrow : Escrow) (accepts : Bool) (receiver : Address) (amount : Uint) :
    Except String Escrow :=
  if amount.toNat ≤ escrow.balance ∧ accepts then
    .ok { escrow with
      balance := escrow.balance - amount.toNat
      transfers := escrow.transfers ++ [(receiver, amount)] }
  else .error ""

def realseAmountToSeller (escrow : Escrow) (accepts : Bool) (caller : Address) :
    Except String Escrow := do
  require (!escrow.fundsDisbursed) "Funds should not be disbursed"
  require (caller = escrow.seller ∨ caller = escrow.buyer ∨ caller = escrow.arbiter)
    "Caller should be seller or buyer or arbiter"
  let escrow := if !escrow.releaseAmount.get caller then
      { escrow with
        releaseAmount := escrow.releaseAmount.set caller true
        releaseCount := escrow.releaseCount + 1 }
    else escrow
  if 2 ≤ escrow.releaseCount then
    let escrow ← escrow.transfer accepts escrow.seller escrow.amount
    .ok { escrow with fundsDisbursed := true }
  else .ok escrow

def refundAmountToBuyer (escrow : Escrow) (accepts : Bool) (caller : Address) :
    Except String Escrow := do
  require (!escrow.fundsDisbursed) "Funds should not be disbursed"
  require (caller = escrow.seller ∨ caller = escrow.buyer ∨ caller = escrow.arbiter)
    "Caller should be seller or buyer or arbiter"
  let escrow := if !escrow.refundAmount.get caller then
      { escrow with
        refundAmount := escrow.refundAmount.set caller true
        refundCount := escrow.refundCount + 1 }
    else escrow
  if 2 ≤ escrow.refundCount then
    let escrow ← escrow.transfer accepts escrow.buyer escrow.amount
    .ok { escrow with fundsDisbursed := true }
  else .ok escrow

end Escrow

/-! Calls that do not revert. -/

theorem bind_eq_ok {α β : Type} {x : Except String α} {g : α → Except String β} {r : β} :
    x >>= g = .ok r ↔ ∃ a, x = .ok a ∧ g a = .ok r := by
  cases x with
  | error message => exact ⟨nofun, fun ⟨_, h, _⟩ => nomatch h⟩
  | ok a => exact ⟨fun h => ⟨a, rfl, h⟩, fun ⟨_, h, hg⟩ => by cases h; exact hg⟩

theorem require_bind_eq_ok {α : Type} {condition : Bool} {message : String}
    {g : Unit → Except String α} {r : α} :
    require condition message >>= g = .ok r ↔ condition = true ∧ g () = .ok r := by
  cases condition with
  | false => exact ⟨nofun, fun h => nomatch h.1⟩
  | true => exact ⟨fun h => ⟨rfl, h⟩, fun h => h.2⟩

/-- The two functions of the contract. -/
inductive Side where
  | release
  | refund
  deriving DecidableEq, Repr, Inhabited

namespace Side

def other : Side → Side
  | .release => .refund
  | .refund => .release

theorem eq_other {side another : Side} (h : another ≠ side) : another = side.other := by
  cases side <;> cases another <;> first | rfl | exact absurd rfl h

end Side

namespace Escrow

def votes (escrow : Escrow) : Side → Lib.Mapping Address Bool
  | .release => escrow.releaseAmount
  | .refund => escrow.refundAmount

def count (escrow : Escrow) : Side → Uint
  | .release => escrow.releaseCount
  | .refund => escrow.refundCount

def beneficiary (escrow : Escrow) : Side → Address
  | .release => escrow.seller
  | .refund => escrow.buyer

def call (escrow : Escrow) (side : Side) (accepts : Bool) (caller : Address) :
    Except String Escrow :=
  match side with
  | .release => escrow.realseAmountToSeller accepts caller
  | .refund => escrow.refundAmountToBuyer accepts caller

/-- The vote of an account counts once. -/
def recorded (escrow : Escrow) (side : Side) (caller : Address) : Escrow :=
  if escrow.votes side |>.get caller then escrow
  else match side with
    | .release => { escrow with
        releaseAmount := escrow.releaseAmount.set caller true
        releaseCount := escrow.releaseCount + 1 }
    | .refund => { escrow with
        refundAmount := escrow.refundAmount.set caller true
        refundCount := escrow.refundCount + 1 }

/-- The amount goes out to the account of a side. -/
def paid (escrow : Escrow) (side : Side) : Escrow :=
  { escrow with
    balance := escrow.balance - escrow.amount.toNat
    transfers := escrow.transfers ++ [(escrow.beneficiary side, escrow.amount)]
    fundsDisbursed := true }

def participants (escrow : Escrow) : List Address :=
  [escrow.seller, escrow.buyer, escrow.arbiter].dedup

theorem mem_participants {escrow : Escrow} {caller : Address} :
    caller ∈ escrow.participants ↔
      caller = escrow.seller ∨ caller = escrow.buyer ∨ caller = escrow.arbiter := by
  simp [participants]

theorem transfer_eq_ok {escrow escrow' : Escrow} {accepts : Bool} {receiver : Address}
    {amount : Uint} (h : escrow.transfer accepts receiver amount = .ok escrow') :
    amount.toNat ≤ escrow.balance ∧
      escrow' = { escrow with
        balance := escrow.balance - amount.toNat
        transfers := escrow.transfers ++ [(receiver, amount)] } := by
  unfold transfer at h
  split at h
  · rename_i haccepted
    cases h
    exact ⟨haccepted.1, rfl⟩
  · cases h

@[simp] theorem recorded_productId (escrow : Escrow) (side : Side) (caller : Address) :
    (escrow.recorded side caller).productId = escrow.productId := by
  cases side <;> simp only [recorded] <;> split <;> rfl

@[simp] theorem recorded_seller (escrow : Escrow) (side : Side) (caller : Address) :
    (escrow.recorded side caller).seller = escrow.seller := by
  cases side <;> simp only [recorded] <;> split <;> rfl

@[simp] theorem recorded_buyer (escrow : Escrow) (side : Side) (caller : Address) :
    (escrow.recorded side caller).buyer = escrow.buyer := by
  cases side <;> simp only [recorded] <;> split <;> rfl

@[simp] theorem recorded_arbiter (escrow : Escrow) (side : Side) (caller : Address) :
    (escrow.recorded side caller).arbiter = escrow.arbiter := by
  cases side <;> simp only [recorded] <;> split <;> rfl

@[simp] theorem recorded_amount (escrow : Escrow) (side : Side) (caller : Address) :
    (escrow.recorded side caller).amount = escrow.amount := by
  cases side <;> simp only [recorded] <;> split <;> rfl

@[simp] theorem recorded_fundsDisbursed (escrow : Escrow) (side : Side) (caller : Address) :
    (escrow.recorded side caller).fundsDisbursed = escrow.fundsDisbursed := by
  cases side <;> simp only [recorded] <;> split <;> rfl

@[simp] theorem recorded_balance (escrow : Escrow) (side : Side) (caller : Address) :
    (escrow.recorded side caller).balance = escrow.balance := by
  cases side <;> simp only [recorded] <;> split <;> rfl

@[simp] theorem recorded_transfers (escrow : Escrow) (side : Side) (caller : Address) :
    (escrow.recorded side caller).transfers = escrow.transfers := by
  cases side <;> simp only [recorded] <;> split <;> rfl

/-- A vote is recorded, and the second one pays. -/
theorem call_eq_ok {escrow escrow' : Escrow} {side : Side} {accepts : Bool}
    {caller : Address} (h : escrow.call side accepts caller = .ok escrow') :
    escrow.fundsDisbursed = false ∧ caller ∈ escrow.participants ∧
      (((escrow.recorded side caller).count side < 2 ∧
          escrow' = escrow.recorded side caller) ∨
        (2 ≤ (escrow.recorded side caller).count side ∧
          escrow.amount.toNat ≤ escrow.balance ∧
          escrow' = (escrow.recorded side caller).paid side)) := by
  cases side with
  | release =>
      simp only [call, realseAmountToSeller] at h
      obtain ⟨hopen, h⟩ := require_bind_eq_ok.mp h
      obtain ⟨hcaller, h⟩ := require_bind_eq_ok.mp h
      refine ⟨by simpa using hopen, mem_participants.mpr (of_decide_eq_true hcaller), ?_⟩
      have hrecorded : (if !escrow.releaseAmount.get caller then
          { escrow with
            releaseAmount := escrow.releaseAmount.set caller true
            releaseCount := escrow.releaseCount + 1 }
          else escrow) = escrow.recorded .release caller := by
        cases hvoted : escrow.releaseAmount.get caller <;> simp [recorded, votes, hvoted]
      rw [hrecorded] at h
      split at h
      · rename_i hcount
        obtain ⟨paid, htransfer, h⟩ := bind_eq_ok.mp h
        obtain ⟨hfunds, rfl⟩ := transfer_eq_ok htransfer
        cases h
        exact .inr ⟨hcount, by simpa using hfunds, rfl⟩
      · rename_i hcount
        cases h
        exact .inl ⟨BitVec.not_le.mp hcount, rfl⟩
  | refund =>
      simp only [call, refundAmountToBuyer] at h
      obtain ⟨hopen, h⟩ := require_bind_eq_ok.mp h
      obtain ⟨hcaller, h⟩ := require_bind_eq_ok.mp h
      refine ⟨by simpa using hopen, mem_participants.mpr (of_decide_eq_true hcaller), ?_⟩
      have hrecorded : (if !escrow.refundAmount.get caller then
          { escrow with
            refundAmount := escrow.refundAmount.set caller true
            refundCount := escrow.refundCount + 1 }
          else escrow) = escrow.recorded .refund caller := by
        cases hvoted : escrow.refundAmount.get caller <;> simp [recorded, votes, hvoted]
      rw [hrecorded] at h
      split at h
      · rename_i hcount
        obtain ⟨paid, htransfer, h⟩ := bind_eq_ok.mp h
        obtain ⟨hfunds, rfl⟩ := transfer_eq_ok htransfer
        cases h
        exact .inr ⟨hcount, by simpa using hfunds, rfl⟩
      · rename_i hcount
        cases h
        exact .inl ⟨BitVec.not_le.mp hcount, rfl⟩

/-! The votes and the ether of an escrow. -/

/-- The accounts whose votes for a side are recorded. -/
def voters (escrow : Escrow) (side : Side) : Nat :=
  escrow.participants.countP (escrow.votes side).get

structure Accounted (productId : Uint) (seller buyer arbiter : Address) (value : Uint)
    (escrow : Escrow) : Prop where
  created : escrow.productId = productId ∧ escrow.seller = seller ∧ escrow.buyer = buyer ∧
    escrow.arbiter = arbiter ∧ escrow.amount = value
  count : ∀ side, (escrow.count side).toNat = escrow.voters side
  recorded : ∀ side caller, (escrow.votes side).get caller = true →
    caller ∈ escrow.participants
  disbursed : escrow.fundsDisbursed = true ↔ ∃ side, 2 ≤ escrow.count side
  before : escrow.fundsDisbursed = false → escrow.balance = value.toNat ∧ escrow.transfers = []
  after : escrow.fundsDisbursed = true → escrow.balance = 0 ∧
    ∃ side, 2 ≤ escrow.count side ∧ escrow.count side.other < 2 ∧
      escrow.transfers = [(escrow.beneficiary side, value)]

theorem accounted_create (productId : Uint) (seller buyer arbiter : Address) (value : Uint) :
    Accounted productId seller buyer arbiter value
      (create productId seller buyer arbiter value) where
  created := ⟨rfl, rfl, rfl, rfl, rfl⟩
  count side := by
    cases side <;> exact (List.countP_eq_zero.mpr fun caller _ => by simp [votes, create]).symm
  recorded side caller hvoted := by
    cases side <;> simp [votes, create] at hvoted
  disbursed := by
    refine ⟨nofun, ?_⟩
    rintro ⟨side, hcount⟩
    cases side <;> exact absurd (show (2 : Uint) ≤ 0 from hcount) (by decide)
  before _ := ⟨rfl, rfl⟩
  after := nofun

theorem recorded_of_voted {escrow : Escrow} {side : Side} {caller : Address}
    (h : (escrow.votes side).get caller = true) : escrow.recorded side caller = escrow :=
  if_pos h

theorem recorded_votes {escrow : Escrow} {side : Side} {caller : Address}
    (h : (escrow.votes side).get caller = false) :
    (escrow.recorded side caller).votes side = (escrow.votes side).set caller true := by
  cases side <;> simp [recorded, h] <;> rfl

theorem recorded_count {escrow : Escrow} {side : Side} {caller : Address}
    (h : (escrow.votes side).get caller = false) :
    (escrow.recorded side caller).count side = escrow.count side + 1 := by
  cases side <;> simp [recorded, h] <;> rfl

theorem recorded_votes_other (escrow : Escrow) (side : Side) (caller : Address) :
    (escrow.recorded side caller).votes side.other = escrow.votes side.other := by
  cases side <;> simp only [recorded] <;> split <;> rfl

theorem recorded_count_other (escrow : Escrow) (side : Side) (caller : Address) :
    (escrow.recorded side caller).count side.other = escrow.count side.other := by
  cases side <;> simp only [recorded] <;> split <;> rfl

@[simp] theorem paid_count (escrow : Escrow) (side other : Side) :
    (escrow.paid side).count other = escrow.count other := by
  cases other <;> rfl

@[simp] theorem paid_votes (escrow : Escrow) (side other : Side) :
    (escrow.paid side).votes other = escrow.votes other := by
  cases other <;> rfl

@[simp] theorem paid_participants (escrow : Escrow) (side : Side) :
    (escrow.paid side).participants = escrow.participants := rfl

@[simp] theorem paid_beneficiary (escrow : Escrow) (side other : Side) :
    (escrow.paid side).beneficiary other = escrow.beneficiary other := by
  cases other <;> rfl

@[simp] theorem recorded_beneficiary (escrow : Escrow) (side other : Side)
    (caller : Address) :
    (escrow.recorded side caller).beneficiary other = escrow.beneficiary other := by
  cases other <;> simp [beneficiary]

theorem recorded_participants (escrow : Escrow) (side : Side) (caller : Address) :
    (escrow.recorded side caller).participants = escrow.participants := by
  simp [participants]

variable {escrow escrow' : Escrow} {productId value : Uint} {seller buyer arbiter : Address}

theorem voters_le (escrow : Escrow) (side : Side) : escrow.voters side ≤ 3 :=
  calc escrow.voters side
    _ ≤ escrow.participants.length := List.countP_le_length
    _ ≤ 3 := (List.dedup_sublist _).length_le

/-- Recording a vote keeps the counts right. -/
theorem Accounted.count_recorded (h : Accounted productId seller buyer arbiter value escrow)
    {caller : Address} (hcaller : caller ∈ escrow.participants) (side other : Side) :
    ((escrow.recorded side caller).count other).toNat =
      (escrow.recorded side caller).voters other := by
  cases hvoted : (escrow.votes side).get caller with
  | true =>
      rw [recorded_of_voted hvoted]
      exact h.count other
  | false =>
      by_cases hother : other = side
      · subst hother
        have hcount := h.count other
        have hle := voters_le escrow other
        have hvoters : (escrow.recorded other caller).voters other = escrow.voters other + 1 := by
          rw [voters, recorded_participants, recorded_votes hvoted]
          exact Lib.Mapping.countP_set _ hvoted (List.nodup_dedup _) hcaller
        have hone : (1 : Uint).toNat = 1 := rfl
        rw [recorded_count hvoted, hvoters, BitVec.toNat_add, hcount, hone]
        exact Nat.mod_eq_of_lt (by omega)
      · rw [Side.eq_other hother, recorded_count_other, voters, recorded_participants,
          recorded_votes_other]
        exact h.count side.other

theorem Accounted.voted_recorded (h : Accounted productId seller buyer arbiter value escrow)
    {caller : Address} (hcaller : caller ∈ escrow.participants) (side other : Side)
    {voter : Address} (hvoted : ((escrow.recorded side caller).votes other).get voter = true) :
    voter ∈ escrow.participants := by
  cases hold : (escrow.votes side).get caller with
  | true =>
      rw [recorded_of_voted hold] at hvoted
      exact h.recorded other voter hvoted
  | false =>
      by_cases hother : other = side
      · subst hother
        by_cases hvoter : voter = caller
        · rwa [hvoter]
        · rw [recorded_votes hold, Lib.Mapping.get_set_of_ne _ _ hvoter] at hvoted
          exact h.recorded other voter hvoted
      · rw [Side.eq_other hother, recorded_votes_other] at hvoted
        exact h.recorded side.other voter hvoted

theorem Accounted.call (h : Accounted productId seller buyer arbiter value escrow)
    {side : Side} {accepts : Bool} {caller : Address}
    (hcall : escrow.call side accepts caller = .ok escrow') :
    Accounted productId seller buyer arbiter value escrow' := by
  obtain ⟨hopen, hcaller, hpaid⟩ := call_eq_ok hcall
  have hfew : ∀ other, escrow.count other < 2 := by
    intro other
    rw [← BitVec.not_le]
    intro hcount
    have hdisbursed := h.disbursed.mpr ⟨other, hcount⟩
    rw [hopen] at hdisbursed
    cases hdisbursed
  have hother : (escrow.recorded side caller).count side.other < 2 := by
    rw [recorded_count_other]
    exact hfew side.other
  obtain ⟨hbalance, htransfers⟩ := h.before hopen
  have hcreated : (escrow.recorded side caller).productId = productId ∧
      (escrow.recorded side caller).seller = seller ∧
      (escrow.recorded side caller).buyer = buyer ∧
      (escrow.recorded side caller).arbiter = arbiter ∧
      (escrow.recorded side caller).amount = value := by
    simpa using h.created
  have hvoters : ∀ other voter, ((escrow.recorded side caller).votes other).get voter = true →
      voter ∈ (escrow.recorded side caller).participants := by
    intro other voter hvoted
    rw [recorded_participants]
    exact h.voted_recorded hcaller side other hvoted
  rcases hpaid with ⟨hcount, rfl⟩ | ⟨hcount, hfunds, rfl⟩
  · refine ⟨hcreated, h.count_recorded hcaller side, hvoters, ?_, ?_, ?_⟩
    · rw [recorded_fundsDisbursed, hopen]
      refine ⟨nofun, ?_⟩
      rintro ⟨another, hmany⟩
      by_cases hsame : another = side
      · rw [hsame] at hmany
        exact absurd hcount (BitVec.not_lt.mpr hmany)
      · rw [Side.eq_other hsame] at hmany
        exact absurd hother (BitVec.not_lt.mpr hmany)
    · intro _
      rw [recorded_balance, recorded_transfers]
      exact ⟨hbalance, htransfers⟩
    · rw [recorded_fundsDisbursed, hopen]
      exact nofun
  · refine ⟨hcreated, ?_, ?_, ?_, nofun, ?_⟩
    · intro other
      rw [paid_count, voters, paid_votes, paid_participants]
      exact h.count_recorded hcaller side other
    · intro other voter hvoted
      rw [paid_votes] at hvoted
      exact hvoters other voter hvoted
    · exact ⟨fun _ => ⟨side, by rwa [paid_count]⟩, fun _ => rfl⟩
    · intro _
      refine ⟨?_, side, by rwa [paid_count], by rwa [paid_count], ?_⟩
      · simp [paid, hbalance, h.created.2.2.2.2]
      · rw [paid_beneficiary]
        simp [paid, htransfers, h.created.2.2.2.2]

/-! Runs of calls with any caller. -/

structure Vote where
  side : Side
  caller : Address
  accepts : Bool
  deriving Inhabited

/-- A call that does not revert. -/
def step (escrow : Escrow) (vote : Vote) : Option Escrow :=
  (escrow.call vote.side vote.accepts vote.caller).toOption

theorem step_eq_some {vote : Vote} :
    escrow.step vote = some escrow' ↔
      escrow.call vote.side vote.accepts vote.caller = .ok escrow' := by
  unfold step
  cases escrow.call vote.side vote.accepts vote.caller <;> simp [Except.toOption]

abbrev VoteRun (productId : Uint) (seller buyer arbiter : Address) (value : Uint) :=
  Lib.Run (create productId seller buyer arbiter value) step

theorem run_accounted (run : VoteRun productId seller buyer arbiter value) :
    ∀ k, k ≤ run.length →
      Accounted productId seller buyer arbiter value (run.state k) := by
  refine run.invariant (accounted_create productId seller buyer arbiter value) ?_
  intro escrow vote escrow' h hstep
  exact h.call (step_eq_some.mp hstep)

/-- The counts are those of the recorded participants, the second vote of a side pays
once and in full, and nothing changes after it. -/
theorem escrow_accounts (run : VoteRun productId seller buyer arbiter value) :
    ∀ k, k ≤ run.length →
      Accounted productId seller buyer arbiter value (run.state k) ∧
        ∀ j, k ≤ j → j ≤ run.length → (run.state k).fundsDisbursed = true →
          run.state j = run.state k := by
  intro k hk
  refine ⟨run_accounted run k hk, ?_⟩
  intro j hkj hj hdisbursed
  refine run.induct_from (P := fun j => run.state j = run.state k) rfl ?_ j hkj hj
  intro i hki hi ih
  have hcall := step_eq_some.mp (run.steps i hi)
  have hopen := (call_eq_ok hcall).1
  rw [ih, hdisbursed] at hopen
  cases hopen

/-- The buyer votes for both sides. -/
def releaseVotes : List Vote :=
  [⟨.refund, 2, true⟩, ⟨.release, 1, true⟩, ⟨.release, 2, true⟩]

theorem releaseVotes_exec : (Lib.exec step (create 7 1 2 3 30) releaseVotes).isSome := by
  decide +kernel

theorem escrow_accounts_release : ∃ run : VoteRun 7 1 2 3 30, run.length = 3 ∧
    Accounted 7 1 2 3 30 (run.state 3) ∧ (run.state 3).transfers = [(1, 30)] :=
  ⟨.ofActions releaseVotes releaseVotes_exec, rfl,
    (escrow_accounts _ 3 (Nat.le_refl 3)).1, by decide +kernel⟩

end Escrow

end BlockchainTutorial.Auction
