import BlockchainTutorial.Auction.Voting

namespace BlockchainTutorial.Crowdfunding

open Auction (Uint Address Message require bind_eq_ok require_bind_eq_ok)

/-! `Project.sol`. A call that reverts gives its message and changes nothing. -/

structure Payment where
  description : String
  amount : Uint
  receiver : Address
  completed : Bool
  voters : Lib.Mapping Address Bool
  voterCount : Uint

/-- `balance` is the ether of the contract, `contributions` what it was sent and
`transfers` what it has sent. -/
structure Project where
  owner : Address
  description : String
  minInvest : Uint
  maxInvest : Uint
  goal : Uint
  investors : Lib.Mapping Address Uint
  investorCount : Uint
  payments : List Payment
  balance : Nat
  contributions : List (Address × Uint)
  transfers : List (Address × Uint)

inductive Call where
  | contribute
  | createPayment (description : String) (amount : Uint) (receiver : Address)
  | voteForPayment (index : Uint)
  | doPayment (index : Uint)
  deriving Inhabited

def Payment.create (description : String) (amount : Uint) (receiver : Address) : Payment where
  description
  amount
  receiver
  completed := false
  voters := ∅
  voterCount := 0

def Payment.voted (payment : Payment) (sender : Address) : Payment :=
  { payment with
    voters := payment.voters.set sender true
    voterCount := payment.voterCount + 1 }

def Payment.complete (payment : Payment) : Payment :=
  { payment with completed := true }

namespace Project

def create (owner : Address) (description : String) (minInvest maxInvest goal : Uint) :
    Project where
  owner
  description
  minInvest
  maxInvest
  goal
  investors := ∅
  investorCount := 0
  payments := []
  balance := 0
  contributions := []
  transfers := []

/-- What `contribute` writes. -/
def credit (project : Project) (msg : Message) : Project :=
  { project with
    investorCount := if project.investors.get msg.sender = 0 then project.investorCount + 1
      else project.investorCount
    investors := project.investors.set msg.sender
      (project.investors.get msg.sender + msg.value)
    balance := project.balance + msg.value.toNat
    contributions := project.contributions ++ [(msg.sender, msg.value)] }

/-- The balance of the contract has the value of the message when the function starts. -/
def contribute (project : Project) (msg : Message) : Except String Project := do
  require (project.minInvest ≤ msg.value) "Invest value should be larger than minInvest."
  require (msg.value ≤ project.maxInvest) "Invest value should be less than maxInvest."
  require (project.balance + msg.value.toNat ≤ project.goal.toNat)
    "Total amount should not exceed goal."
  .ok (project.credit msg)

def addPayment (project : Project) (payment : Payment) : Project :=
  { project with payments := project.payments ++ [payment] }

/-- A function that is not payable takes no ether. -/
def createPayment (project : Project) (msg : Message) (description : String) (amount : Uint)
    (receiver : Address) : Except String Project := do
  require (msg.value = 0) ""
  require (msg.sender = project.owner) "Message sender must be owner."
  .ok (project.addPayment (Payment.create description amount receiver))

/-- An index out of range ends the call. -/
def paymentAt (project : Project) (index : Uint) : Except String Payment :=
  match project.payments[index.toNat]? with
  | some payment => .ok payment
  | none => .error ""

def setPayment (project : Project) (index : Uint) (payment : Payment) : Project :=
  { project with payments := project.payments.set index.toNat payment }

def voteForPayment (project : Project) (msg : Message) (index : Uint) :
    Except String Project := do
  require (msg.value = 0) ""
  let payment ← project.paymentAt index
  require (0 < project.investors.get msg.sender) "Messge sender should be investor."
  require (!payment.voters.get msg.sender) "Message sender should not has voted."
  .ok (project.setPayment index (payment.voted msg.sender))

def debit (project : Project) (receiver : Address) (amount : Uint) : Project :=
  { project with
    balance := project.balance - amount.toNat
    transfers := project.transfers ++ [(receiver, amount)] }

/-- The receiver may refuse, and has too little gas to call back. -/
def transfer (project : Project) (accepts : Bool) (receiver : Address) (amount : Uint) :
    Except String Project :=
  if amount.toNat ≤ project.balance ∧ accepts then .ok (project.debit receiver amount)
  else .error ""

def doPayment (project : Project) (msg : Message) (index : Uint) :
    Except String Project := do
  require (msg.value = 0) ""
  require (msg.sender = project.owner) "Message sender must be owner."
  let payment ← project.paymentAt index
  require (!payment.completed) "Payment should not be completed."
  require (payment.amount.toNat ≤ project.balance)
    "Balance should be larger than amount of payment."
  require (project.investorCount / 2 < payment.voterCount)
    "Voters should be more than 1/2 of investors."
  let project ← project.transfer msg.accepts payment.receiver payment.amount
  .ok (project.setPayment index payment.complete)

def call (project : Project) (msg : Message) : Call → Except String Project
  | .contribute => project.contribute msg
  | .createPayment description amount receiver =>
      project.createPayment msg description amount receiver
  | .voteForPayment index => project.voteForPayment msg index
  | .doPayment index => project.doPayment msg index

/-- A call that does not revert. No account has 2^256 wei. -/
def step (project : Project) (action : Message × Call) : Option Project :=
  if project.balance + action.1.value.toNat < 2 ^ 256 then
    (project.call action.1 action.2).toOption
  else none

end Project

/-- The addresses of the projects. -/
structure ProjectList where
  projects : List Address

/-- `newProject` is the address that the new contract gets. -/
def ProjectList.createProject (list : ProjectList) (msg : Message) (newProject : Address)
    (description : String) (minInvest maxInvest goal : Uint) :
    Except String (ProjectList × Project) := do
  require (msg.value = 0) ""
  .ok (⟨list.projects ++ [newProject]⟩,
    Project.create msg.sender description minInvest maxInvest goal)

/-! What a call does. -/

namespace Project

variable {project project' : Project} {msg : Message}

theorem createProject_eq_ok {list list' : ProjectList} {newProject : Address}
    {description : String} {minInvest maxInvest goal : Uint}
    (h : list.createProject msg newProject description minInvest maxInvest goal =
      .ok (list', project)) :
    project = create msg.sender description minInvest maxInvest goal := by
  obtain ⟨_, h⟩ := require_bind_eq_ok.mp h
  cases h
  rfl

theorem contribute_eq_ok (h : project.contribute msg = .ok project') :
    project.balance + msg.value.toNat ≤ project.goal.toNat ∧ project' = project.credit msg := by
  obtain ⟨_, h⟩ := require_bind_eq_ok.mp h
  obtain ⟨_, h⟩ := require_bind_eq_ok.mp h
  obtain ⟨hgoal, h⟩ := require_bind_eq_ok.mp h
  cases h
  exact ⟨of_decide_eq_true hgoal, rfl⟩

theorem createPayment_eq_ok {description : String} {amount : Uint} {receiver : Address}
    (h : project.createPayment msg description amount receiver = .ok project') :
    project' = project.addPayment (Payment.create description amount receiver) := by
  obtain ⟨_, h⟩ := require_bind_eq_ok.mp h
  obtain ⟨_, h⟩ := require_bind_eq_ok.mp h
  cases h
  rfl

theorem paymentAt_eq_ok {index : Uint} {payment : Payment}
    (h : project.paymentAt index = .ok payment) :
    project.payments[index.toNat]? = some payment := by
  unfold paymentAt at h
  split at h
  · rename_i found hfound
    cases h
    exact hfound
  · cases h

theorem voteForPayment_eq_ok {index : Uint}
    (h : project.voteForPayment msg index = .ok project') :
    ∃ payment, project.payments[index.toNat]? = some payment ∧
      0 < project.investors.get msg.sender ∧ payment.voters.get msg.sender = false ∧
      project' = project.setPayment index (payment.voted msg.sender) := by
  obtain ⟨_, h⟩ := require_bind_eq_ok.mp h
  obtain ⟨payment, hpayment, h⟩ := bind_eq_ok.mp h
  obtain ⟨hinvestor, h⟩ := require_bind_eq_ok.mp h
  obtain ⟨hvoted, h⟩ := require_bind_eq_ok.mp h
  cases h
  exact ⟨payment, paymentAt_eq_ok hpayment, of_decide_eq_true hinvestor,
    by simpa using hvoted, rfl⟩

theorem transfer_eq_ok {accepts : Bool} {receiver : Address} {amount : Uint}
    (h : project.transfer accepts receiver amount = .ok project') :
    project' = project.debit receiver amount := by
  unfold transfer at h
  split at h
  · cases h
    rfl
  · cases h

theorem doPayment_eq_ok {index : Uint} (h : project.doPayment msg index = .ok project') :
    ∃ payment, project.payments[index.toNat]? = some payment ∧ payment.completed = false ∧
      payment.amount.toNat ≤ project.balance ∧
      project.investorCount / 2 < payment.voterCount ∧
      project' = (project.debit payment.receiver payment.amount).setPayment index
        payment.complete := by
  obtain ⟨_, h⟩ := require_bind_eq_ok.mp h
  obtain ⟨_, h⟩ := require_bind_eq_ok.mp h
  obtain ⟨payment, hpayment, h⟩ := bind_eq_ok.mp h
  obtain ⟨hopen, h⟩ := require_bind_eq_ok.mp h
  obtain ⟨hbalance, h⟩ := require_bind_eq_ok.mp h
  obtain ⟨hmajority, h⟩ := require_bind_eq_ok.mp h
  obtain ⟨sent, htransfer, h⟩ := bind_eq_ok.mp h
  obtain rfl := transfer_eq_ok htransfer
  cases h
  exact ⟨payment, paymentAt_eq_ok hpayment, by simpa using hopen,
    of_decide_eq_true hbalance, of_decide_eq_true hmajority, rfl⟩

/-- The four things that a call does. -/
theorem step_cases {action : Message × Call} (h : project.step action = some project') :
    (action.2 = .contribute ∧
      project.balance + action.1.value.toNat ≤ project.goal.toNat ∧
      project' = project.credit action.1) ∨
    (∃ description amount receiver, action.2 = .createPayment description amount receiver ∧
      project' = project.addPayment (Payment.create description amount receiver)) ∨
    (∃ index payment, action.2 = .voteForPayment index ∧
      project.payments[index.toNat]? = some payment ∧
      0 < project.investors.get action.1.sender ∧
      payment.voters.get action.1.sender = false ∧
      project' = project.setPayment index (payment.voted action.1.sender)) ∨
    (∃ index payment, action.2 = .doPayment index ∧
      project.payments[index.toNat]? = some payment ∧ payment.completed = false ∧
      payment.amount.toNat ≤ project.balance ∧
      project.investorCount / 2 < payment.voterCount ∧
      project' = (project.debit payment.receiver payment.amount).setPayment index
        payment.complete) := by
  obtain ⟨msg, call⟩ := action
  have hcall : project.call msg call = .ok project' := by
    unfold step at h
    split at h
    · cases hcall : project.call msg call with
      | error message => rw [hcall] at h; cases h
      | ok next => rw [hcall] at h; cases h; rfl
    · cases h
  cases call with
  | contribute =>
      obtain ⟨hgoal, heq⟩ := contribute_eq_ok hcall
      exact .inl ⟨rfl, hgoal, heq⟩
  | createPayment description amount receiver =>
      exact .inr (.inl ⟨description, amount, receiver, rfl, createPayment_eq_ok hcall⟩)
  | voteForPayment index =>
      obtain ⟨payment, hvote⟩ := voteForPayment_eq_ok hcall
      exact .inr (.inr (.inl ⟨index, payment, rfl, hvote⟩))
  | doPayment index =>
      obtain ⟨payment, hpaid⟩ := doPayment_eq_ok hcall
      exact .inr (.inr (.inr ⟨index, payment, rfl, hpaid⟩))

theorem step_doPayment {action : Message × Call} {index : Uint}
    (h : project.step action = some project') (hcall : action.2 = .doPayment index) :
    ∃ payment, project.payments[index.toNat]? = some payment ∧ payment.completed = false ∧
      payment.amount.toNat ≤ project.balance ∧
      project.investorCount / 2 < payment.voterCount ∧
      project' = (project.debit payment.receiver payment.amount).setPayment index
        payment.complete := by
  have hcases := step_cases h
  rw [hcall] at hcases
  simpa using hcases

end Project

end BlockchainTutorial.Crowdfunding
