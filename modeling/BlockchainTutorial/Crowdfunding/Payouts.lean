import Mathlib.Algebra.Ring.Nat
import Mathlib.Data.Fintype.Card
import BlockchainTutorial.Crowdfunding.Project

namespace BlockchainTutorial.Crowdfunding

open Auction (Uint Address Message bind_eq_ok require_bind_eq_ok)

/-! Who has contributed, who has voted, and what was paid out. -/

namespace Project

/-- The addresses with a positive contribution. -/
def contributors (project : Project) : List Address :=
  ((project.contributions.filter fun entry => 0 < entry.2).map Prod.fst).dedup

def totalContributed (project : Project) : Nat :=
  (project.contributions.map fun entry => entry.2.toNat).sum

def completedPayments (project : Project) : List Payment :=
  project.payments.filter Payment.completed

def paidOut (project : Project) : Nat :=
  (project.completedPayments.map fun payment => payment.amount.toNat).sum

end Project

namespace Payment

/-- The addresses whose vote for a payment is recorded. -/
def voterList (payment : Payment) : List Address :=
  payment.voters.holders id

/-- `voterCount` is the number of the voters, and all of them are contributors. -/
structure Counted (contributors : List Address) (payment : Payment) : Prop where
  count : payment.voterCount.toNat = payment.voterList.length
  contributed : ∀ voter ∈ payment.voterList, voter ∈ contributors

/-- More than half of the contributors have voted. -/
def Majority (contributors : List Address) (payment : Payment) : Prop :=
  contributors.length < 2 * contributors.countP payment.voters.get

instance (contributors : List Address) (payment : Payment) :
    Decidable (payment.Majority contributors) :=
  inferInstanceAs (Decidable (_ < _))

theorem mem_voterList {payment : Payment} {voter : Address} :
    voter ∈ payment.voterList ↔ payment.voters.get voter = true :=
  Lib.Mapping.mem_holders rfl

theorem nodup_voterList (payment : Payment) : payment.voterList.Nodup :=
  Lib.Mapping.nodup_holders _

theorem length_le_addresses {accounts : List Address} (h : accounts.Nodup) :
    accounts.length ≤ 2 ^ 160 := by
  have hle : (accounts.map BitVec.toNat).toFinset ⊆ Finset.range (2 ^ 160) := by
    intro n hn
    obtain ⟨account, _, rfl⟩ := List.mem_map.mp (List.mem_toFinset.mp hn)
    exact Finset.mem_range.mpr account.isLt
  have hcard := Finset.card_le_card hle
  rwa [List.toFinset_card_of_nodup (h.map fun _ _ => BitVec.eq_of_toNat_eq), List.length_map,
    Finset.card_range] at hcard

theorem counted_create (contributors : List Address) (description : String) (amount : Uint)
    (receiver : Address) : (create description amount receiver).Counted contributors where
  count := rfl
  contributed voter hvoter := by cases mem_voterList.mp hvoter

theorem Counted.mono {contributors contributors' : List Address} {payment : Payment}
    (h : payment.Counted contributors) (hsubset : contributors ⊆ contributors') :
    payment.Counted contributors' where
  count := h.count
  contributed voter hvoter := hsubset (h.contributed voter hvoter)

theorem Counted.complete {contributors : List Address} {payment : Payment}
    (h : payment.Counted contributors) : payment.complete.Counted contributors where
  count := h.count
  contributed := h.contributed

theorem Counted.voted {contributors : List Address} {payment : Payment} {sender : Address}
    (h : payment.Counted contributors) (hnew : payment.voters.get sender = false)
    (hsender : sender ∈ contributors) : (payment.voted sender).Counted contributors where
  count := by
    have hlength := Lib.Mapping.length_holders_set (p := id) payment.voters sender true rfl
    have hbound := length_le_addresses (nodup_voterList (payment.voted sender))
    have hcount := h.count
    simp only [hnew, id_eq, Bool.false_eq_true, if_false, if_true] at hlength
    simp only [voterList, Payment.voted] at hbound hcount ⊢
    rw [BitVec.toNat_add, hcount, show (1 : Uint).toNat = 1 from rfl,
      Nat.mod_eq_of_lt (by omega)]
    exact hlength.symm
  contributed voter hvoter := by
    by_cases heq : voter = sender
    · rwa [heq]
    · refine h.contributed voter (mem_voterList.mpr ?_)
      have hvoted := mem_voterList.mp hvoter
      rwa [Payment.voted, Lib.Mapping.get_set_of_ne _ _ heq] at hvoted

/-- The voters among the contributors are all voters. -/
theorem Counted.countP {contributors : List Address} {payment : Payment}
    (h : payment.Counted contributors) (hnodup : contributors.Nodup) :
    contributors.countP payment.voters.get = payment.voterCount.toNat := by
  rw [h.count, List.countP_eq_length_filter]
  refine (List.perm_of_nodup_nodup_toFinset_eq (hnodup.filter _) payment.nodup_voterList
    ?_).length_eq
  ext voter
  simp only [List.mem_toFinset, List.mem_filter, mem_voterList]
  exact ⟨fun hvoter => hvoter.2,
    fun hvoter => ⟨h.contributed voter (mem_voterList.mpr hvoter), hvoter⟩⟩

end Payment

namespace Project

variable {project project' : Project} {msg : Message}

theorem mem_contributors {account : Address} :
    account ∈ project.contributors ↔
      ∃ value, (account, value) ∈ project.contributions ∧ 0 < value := by
  simp [contributors]

theorem nodup_contributors (project : Project) : project.contributors.Nodup :=
  List.nodup_dedup _

/-- A list with one entry written anew. -/
theorem exists_split {α : Type} {l : List α} {i : Nat} {a : α} (h : l[i]? = some a) :
    ∃ front back, l = front ++ a :: back ∧ ∀ b, l.set i b = front ++ b :: back := by
  obtain ⟨hi, rfl⟩ := List.getElem?_eq_some_iff.mp h
  refine ⟨l.take i, l.drop (i + 1), ?_, fun b => ?_⟩
  · rw [List.getElem_cons_drop, List.take_append_drop]
  · rw [List.set_eq_take_append_cons_drop, if_pos hi]

theorem contributors_credit (project : Project) (msg : Message) (account : Address) :
    account ∈ (project.credit msg).contributors ↔
      account ∈ project.contributors ∨ (account = msg.sender ∧ 0 < msg.value) := by
  simp only [mem_contributors, credit, List.mem_append, List.mem_singleton, Prod.mk.injEq]
  grind

/-- What holds of the accounts of a project after every call. -/
structure Accounted (project : Project) : Prop where
  ether : project.balance + project.paidOut = project.totalContributed
  sent : project.transfers.Perm
    (project.completedPayments.map fun payment => (payment.receiver, payment.amount))
  votes : ∀ payment ∈ project.payments, payment.Counted project.contributors
  entries : ∀ account, project.investors.get account ≠ 0 → account ∈ project.contributors

theorem accounted_create (owner : Address) (description : String)
    (minInvest maxInvest goal : Uint) :
    (create owner description minInvest maxInvest goal).Accounted where
  ether := rfl
  sent := List.Perm.refl _
  votes := nofun
  entries _ h := absurd rfl h

theorem Accounted.credit (h : project.Accounted) (msg : Message) :
    (project.credit msg).Accounted where
  ether := by
    have hether := h.ether
    simp only [totalContributed, paidOut, completedPayments, Project.credit, List.map_append,
      List.sum_append, List.map_singleton, List.sum_singleton] at hether ⊢
    omega
  sent := h.sent
  votes payment hpayment := (h.votes payment hpayment).mono fun account haccount =>
    (contributors_credit project msg account).mpr (.inl haccount)
  entries account hentry := by
    rw [contributors_credit]
    by_cases heq : account = msg.sender
    · subst heq
      by_cases hold : project.investors.get msg.sender = 0
      · refine .inr ⟨rfl, (BitVec.pos_iff_ne_zero _).mpr ?_⟩
        simpa [Project.credit, hold] using hentry
      · exact .inl (h.entries _ hold)
    · refine .inl (h.entries account ?_)
      rwa [Project.credit, Lib.Mapping.get_set_of_ne _ _ heq] at hentry

theorem Accounted.addPayment (h : project.Accounted) (description : String)
    (amount : Uint) (receiver : Address) :
    (project.addPayment (Payment.create description amount receiver)).Accounted := by
  have hcompleted :
      (project.addPayment (Payment.create description amount receiver)).completedPayments =
        project.completedPayments := by
    rw [completedPayments, Project.addPayment, List.filter_append, List.filter_singleton]
    simp [Payment.create, completedPayments]
  refine ⟨?_, ?_, ?_, h.entries⟩
  · rw [paidOut, hcompleted]
    exact h.ether
  · rw [hcompleted]
    exact h.sent
  · intro payment hpayment
    rcases List.mem_append.mp hpayment with hold | hnew
    · exact h.votes payment hold
    · rw [List.mem_singleton.mp hnew]
      exact Payment.counted_create _ _ _ _

theorem Accounted.vote (h : project.Accounted) {index : Uint} {payment : Payment}
    {sender : Address} (hpayment : project.payments[index.toNat]? = some payment)
    (hinvestor : 0 < project.investors.get sender)
    (hnew : payment.voters.get sender = false) :
    (project.setPayment index (payment.voted sender)).Accounted := by
  obtain ⟨front, back, hsplit, hset⟩ := exists_split hpayment
  have hmem : payment ∈ project.payments := List.mem_of_getElem? hpayment
  have hcompleted : ((project.setPayment index (payment.voted sender)).completedPayments.map
      fun payment => (payment.receiver, payment.amount)) =
        project.completedPayments.map fun payment => (payment.receiver, payment.amount) := by
    rw [completedPayments, setPayment, hset, completedPayments, hsplit, List.filter_append,
      List.filter_append, List.filter_cons, List.filter_cons, Payment.voted]
    split <;> simp
  refine ⟨?_, ?_, ?_, h.entries⟩
  · have hamounts := congrArg (List.map fun entry => entry.2.toNat) hcompleted
    simp only [List.map_map, Function.comp_def] at hamounts
    rw [paidOut, hamounts]
    exact h.ether
  · rw [hcompleted]
    exact h.sent
  · intro other hother
    rcases List.mem_or_eq_of_mem_set hother with hold | rfl
    · exact h.votes other hold
    · exact (h.votes payment hmem).voted hnew
        (h.entries sender ((BitVec.pos_iff_ne_zero _).mp hinvestor))

theorem Accounted.pay (h : project.Accounted) {index : Uint} {payment : Payment}
    (hpayment : project.payments[index.toNat]? = some payment)
    (hopen : payment.completed = false) (hbalance : payment.amount.toNat ≤ project.balance) :
    ((project.debit payment.receiver payment.amount).setPayment index
      payment.complete).Accounted := by
  obtain ⟨front, back, hsplit, hset⟩ := exists_split hpayment
  have hmem : payment ∈ project.payments := List.mem_of_getElem? hpayment
  have hcompleted : project.completedPayments =
      front.filter Payment.completed ++ back.filter Payment.completed := by
    rw [completedPayments, hsplit, List.filter_append, List.filter_cons_of_neg (by simp [hopen])]
  have hcompleted' : ((project.debit payment.receiver payment.amount).setPayment index
      payment.complete).completedPayments =
        front.filter Payment.completed ++
          payment.complete :: back.filter Payment.completed := by
    rw [completedPayments, setPayment, debit, hset, List.filter_append,
      List.filter_cons_of_pos rfl]
  refine ⟨?_, ?_, ?_, h.entries⟩
  · have hether := h.ether
    rw [paidOut, hcompleted, List.map_append, List.sum_append] at hether
    rw [paidOut, hcompleted', List.map_append, List.sum_append, List.map_cons, List.sum_cons]
    simp only [setPayment, debit, Payment.complete, totalContributed] at hether ⊢
    omega
  · have hsent := h.sent
    rw [hcompleted, List.map_append] at hsent
    rw [hcompleted', List.map_append, List.map_cons]
    refine ((List.perm_append_singleton _ _).trans (hsent.cons _)).trans ?_
    exact List.perm_middle.symm
  · intro other hother
    rcases List.mem_or_eq_of_mem_set hother with hold | rfl
    · exact h.votes other hold
    · exact (h.votes payment hmem).complete

theorem Accounted.step (h : project.Accounted) {action : Message × Call}
    (hstep : project.step action = some project') : project'.Accounted := by
  rcases step_cases hstep with ⟨_, _, rfl⟩ | ⟨description, amount, receiver, _, rfl⟩ |
    ⟨index, payment, _, hpayment, hinvestor, hnew, rfl⟩ |
    ⟨index, payment, _, hpayment, hopen, hbalance, _, rfl⟩
  · exact h.credit action.1
  · exact h.addPayment description amount receiver
  · exact h.vote hpayment hinvestor hnew
  · exact h.pay hpayment hopen hbalance

/-! A payment keeps its amount and its receiver, and stays completed. -/

def Follows (payment payment' : Payment) : Prop :=
  payment'.amount = payment.amount ∧ payment'.receiver = payment.receiver ∧
    (payment.completed = true → payment'.completed = true)

theorem voted_follows (payment : Payment) (sender : Address) :
    Follows payment (payment.voted sender) := ⟨rfl, rfl, id⟩

theorem complete_follows (payment : Payment) : Follows payment payment.complete :=
  ⟨rfl, rfl, fun _ => rfl⟩

theorem follows_set {payments : List Payment} {place : Nat} {payment payment' : Payment}
    (hpayment : payments[place]? = some payment) (hfollows : Follows payment payment')
    {i : Nat} {first : Payment} (hfirst : payments[i]? = some first) :
    ∃ later, (payments.set place payment')[i]? = some later ∧ Follows first later := by
  by_cases heq : place = i
  · subst heq
    obtain rfl : payment = first := Option.some.inj (hpayment.symm.trans hfirst)
    exact ⟨payment', List.getElem?_set_self (List.getElem?_eq_some_iff.mp hfirst).1, hfollows⟩
  · exact ⟨first, by rw [List.getElem?_set_ne heq, hfirst], rfl, rfl, id⟩

theorem follows_step {action : Message × Call} (hstep : project.step action = some project')
    {i : Nat} {first : Payment} (hfirst : project.payments[i]? = some first) :
    ∃ later, project'.payments[i]? = some later ∧ Follows first later := by
  rcases step_cases hstep with ⟨_, _, rfl⟩ | ⟨description, amount, receiver, _, rfl⟩ |
    ⟨index, payment, _, hpayment, _, _, rfl⟩ | ⟨index, payment, _, hpayment, _, _, _, rfl⟩
  · exact ⟨first, hfirst, rfl, rfl, id⟩
  · have hi := (List.getElem?_eq_some_iff.mp hfirst).1
    exact ⟨first, by rw [addPayment, List.getElem?_append_left hi, hfirst], rfl, rfl, id⟩
  · exact follows_set hpayment (voted_follows payment _) hfirst
  · exact follows_set hpayment (complete_follows payment) hfirst

section Runs

variable {owner : Address} {description : String} {minInvest maxInvest goal : Uint}
  (run : Lib.Run (create owner description minInvest maxInvest goal) step)

theorem follows_run {j i : Nat} {first : Payment}
    (hfirst : (run.state j).payments[i]? = some first) :
    ∀ k, j ≤ k → k ≤ run.length →
      ∃ later, (run.state k).payments[i]? = some later ∧ Follows first later := by
  refine run.induct_from ⟨first, hfirst, rfl, rfl, id⟩ ?_
  rintro k _ hk ⟨later, hlater, hamount, hreceiver, hcompleted⟩
  obtain ⟨next, hnext, hamount', hreceiver', hcompleted'⟩ := follows_step (run.steps k hk) hlater
  exact ⟨next, hnext, hamount'.trans hamount, hreceiver'.trans hreceiver,
    fun hfirst => hcompleted' (hcompleted hfirst)⟩

theorem accounted_run : ∀ k, k ≤ run.length → (run.state k).Accounted :=
  run.invariant (accounted_create _ _ _ _ _) fun _ _ _ h hstep => h.step hstep

theorem completes_once {j k : Nat} {index : Uint} (hjk : j < k) (hk : k < run.length)
    (hj : (run.act j).2 = .doPayment index) : (run.act k).2 ≠ .doPayment index := by
  intro hagain
  obtain ⟨payment, hpayment, _, _, _, hpaid⟩ :=
    step_doPayment (run.steps j (by omega)) hj
  obtain ⟨later, hlater, hopen, _⟩ := step_doPayment (run.steps k hk) hagain
  have hcompleted : (run.state (j + 1)).payments[index.toNat]? = some payment.complete := by
    rw [hpaid]
    exact List.getElem?_set_self (List.getElem?_eq_some_iff.mp hpayment).1
  obtain ⟨found, hfound, _, _, hstays⟩ := follows_run run hcompleted k (by omega) (by omega)
  obtain rfl : found = later := Option.some.inj (hfound.symm.trans hlater)
  rw [hstays rfl] at hopen
  cases hopen

end Runs

/-! The counter of the investors. -/

theorem contributors_le_credit (h : project.Accounted) (msg : Message) :
    (project.credit msg).contributors.length ≤
      project.contributors.length + if project.investors.get msg.sender = 0 then 1 else 0 := by
  by_cases hold : project.investors.get msg.sender = 0
  · have hsubset : (project.credit msg).contributors ⊆ msg.sender :: project.contributors := by
      intro account haccount
      rcases (contributors_credit project msg account).mp haccount with hbefore | ⟨rfl, _⟩
      · exact List.mem_cons_of_mem _ hbefore
      · exact List.mem_cons_self
    rw [if_pos hold]
    exact (List.subperm_of_subset (nodup_contributors _) hsubset).length_le
  · have hsubset : (project.credit msg).contributors ⊆ project.contributors := by
      intro account haccount
      rcases (contributors_credit project msg account).mp haccount with hbefore | ⟨rfl, _⟩
      · exact hbefore
      · exact h.entries _ hold
    rw [if_neg hold]
    exact (List.subperm_of_subset (nodup_contributors _) hsubset).length_le

/-- The counter has counted every contributor, and at most one for each of `n` calls. -/
def Tallied (project : Project) (n : Nat) : Prop :=
  project.contributors.length ≤ project.investorCount.toNat ∧ project.investorCount.toNat ≤ n

theorem Tallied.mono {n : Nat} (h : project.Tallied n) : project.Tallied (n + 1) :=
  ⟨h.1, Nat.le_succ_of_le h.2⟩

theorem Tallied.credit {n : Nat} (h : project.Tallied n) (haccounted : project.Accounted)
    (hn : n + 1 < 2 ^ 256) (msg : Message) : (project.credit msg).Tallied (n + 1) := by
  obtain ⟨hcontributors, hcalls⟩ := h
  have hle := contributors_le_credit haccounted msg
  have hone : (project.investorCount + 1).toNat = project.investorCount.toNat + 1 := by
    rw [BitVec.toNat_add, show (1 : Uint).toNat = 1 from rfl, Nat.mod_eq_of_lt (by omega)]
  by_cases hold : project.investors.get msg.sender = 0
  · have hcount : (project.credit msg).investorCount = project.investorCount + 1 := if_pos hold
    rw [if_pos hold] at hle
    exact ⟨by rw [hcount]; omega, by rw [hcount]; omega⟩
  · have hcount : (project.credit msg).investorCount = project.investorCount := if_neg hold
    rw [if_neg hold] at hle
    exact ⟨by rw [hcount]; omega, by rw [hcount]; omega⟩

theorem Tallied.step {n : Nat} (h : project.Tallied n) (haccounted : project.Accounted)
    (hn : n + 1 < 2 ^ 256) {action : Message × Call}
    (hstep : project.step action = some project') : project'.Tallied (n + 1) := by
  rcases step_cases hstep with ⟨_, _, rfl⟩ | ⟨_, _, _, _, rfl⟩ | ⟨_, _, _, _, _, _, rfl⟩ |
    ⟨_, _, _, _, _, _, _, rfl⟩
  · exact h.credit haccounted hn action.1
  · exact h.mono
  · exact h.mono
  · exact h.mono

theorem Tallied.majority {n : Nat} (h : project.Tallied n) {payment : Payment}
    (hcounted : payment.Counted project.contributors)
    (hvotes : project.investorCount / 2 < payment.voterCount) :
    payment.Majority project.contributors := by
  have hhalf : project.investorCount.toNat / 2 < payment.voterCount.toNat := hvotes
  have hcontributors := h.1
  rw [Payment.Majority, hcounted.countP (nodup_contributors project)]
  omega

section Runs

variable {owner : Address} {description : String} {minInvest maxInvest goal : Uint}
  (run : Lib.Run (create owner description minInvest maxInvest goal) step)

theorem tallied_run : ∀ k, k ≤ run.length → k < 2 ^ 256 → (run.state k).Tallied k := by
  refine run.induct ?_ ?_
  · intro _
    rw [run.starts]
    exact ⟨Nat.le_refl 0, Nat.le_refl 0⟩
  · intro k hk ih hbound
    exact (ih (by omega)).step (accounted_run run k (by omega)) hbound (run.steps k hk)

/-- The ether, the payments and the votes of a project in any run. -/
theorem payouts_accounted :
    (∀ k, k ≤ run.length →
      (run.state k).balance + (run.state k).paidOut = (run.state k).totalContributed ∧
      (run.state k).transfers.Perm ((run.state k).completedPayments.map
        fun payment => (payment.receiver, payment.amount)) ∧
      ∀ payment ∈ (run.state k).payments, payment.Counted (run.state k).contributors) ∧
    (∀ (j k i : Nat) first, j ≤ k → k ≤ run.length → (run.state j).payments[i]? = some first →
      ∃ later, (run.state k).payments[i]? = some later ∧ Follows first later) ∧
    (∀ j k index, j < k → k < run.length → (run.act j).2 = .doPayment index →
      (run.act k).2 ≠ .doPayment index) ∧
    ∀ k index, k < run.length → (run.act k).2 = .doPayment index →
      ∃ payment, (run.state k).payments[index.toNat]? = some payment ∧
        (run.state (k + 1)).payments[index.toNat]? = some payment.complete ∧
        (run.state (k + 1)).transfers =
          (run.state k).transfers ++ [(payment.receiver, payment.amount)] ∧
        (k < 2 ^ 256 → payment.Majority (run.state k).contributors) := by
  refine ⟨fun k hk => ?_, fun j k i first hjk hk hfirst => follows_run run hfirst k hjk hk,
    fun j k index hjk hk hj => completes_once run hjk hk hj, ?_⟩
  · have haccounted := accounted_run run k hk
    exact ⟨haccounted.ether, haccounted.sent, haccounted.votes⟩
  · intro k index hk hact
    have haccounted := accounted_run run k (by omega)
    obtain ⟨payment, hpayment, _, _, hvotes, hpaid⟩ := step_doPayment (run.steps k hk) hact
    refine ⟨payment, hpayment, ?_, by rw [hpaid]; rfl, fun hbound => ?_⟩
    · rw [hpaid]
      exact List.getElem?_set_self (List.getElem?_eq_some_iff.mp hpayment).1
    · exact (tallied_run run k (by omega) hbound).majority
        (haccounted.votes payment (List.mem_of_getElem? hpayment)) hvotes

end Runs

/-! Contributions of nothing, from an account without an entry. -/

theorem step_contribute_nothing {account : Address} (hmin : project.minInvest = 0)
    (hgoal : project.balance ≤ project.goal.toNat) (hbalance : project.balance < 2 ^ 256) :
    project.step (⟨account, 0, true⟩, .contribute) =
      some (project.credit ⟨account, 0, true⟩) := by
  have hzero : (0 : Uint).toNat = 0 := rfl
  have hfloor : project.minInvest ≤ (0 : Uint) := by rw [hmin]; exact Nat.le_refl 0
  have hcap : (0 : Uint) ≤ project.maxInvest := Nat.zero_le _
  have hcall : project.contribute ⟨account, 0, true⟩ =
      .ok (project.credit ⟨account, 0, true⟩) :=
    require_bind_eq_ok.mpr ⟨decide_eq_true hfloor, require_bind_eq_ok.mpr
      ⟨decide_eq_true hcap, require_bind_eq_ok.mpr ⟨decide_eq_true hgoal, rfl⟩⟩⟩
  simp only [step, hzero, Nat.add_zero, hbalance, if_true, call, hcall, Except.toOption]

theorem step_pay {payment : Payment} {index : Uint} (hbalance : project.balance < 2 ^ 256)
    (hpayment : project.payments[index.toNat]? = some payment)
    (hopen : payment.completed = false) (hamount : payment.amount.toNat ≤ project.balance)
    (hvotes : project.investorCount / 2 < payment.voterCount) :
    project.step (⟨project.owner, 0, true⟩, .doPayment index) =
      some ((project.debit payment.receiver payment.amount).setPayment index
        payment.complete) := by
  have hzero : (0 : Uint).toNat = 0 := rfl
  have hat : project.paymentAt index = .ok payment := by rw [paymentAt, hpayment]
  have hsent : project.transfer true payment.receiver payment.amount =
      .ok (project.debit payment.receiver payment.amount) := if_pos ⟨hamount, rfl⟩
  have hcall : project.doPayment ⟨project.owner, 0, true⟩ index = .ok
      ((project.debit payment.receiver payment.amount).setPayment index payment.complete) :=
    require_bind_eq_ok.mpr ⟨rfl, require_bind_eq_ok.mpr ⟨decide_eq_true rfl,
      bind_eq_ok.mpr ⟨payment, hat, require_bind_eq_ok.mpr ⟨by rw [hopen]; rfl,
        require_bind_eq_ok.mpr ⟨decide_eq_true hamount, require_bind_eq_ok.mpr
          ⟨decide_eq_true hvotes, bind_eq_ok.mpr ⟨_, hsent, rfl⟩⟩⟩⟩⟩⟩⟩
  simp only [step, hzero, Nat.add_zero, hbalance, if_true, call, hcall, Except.toOption]

theorem exec_contribute_nothing {account : Address} (n : Nat)
    (hmin : project.minInvest = 0) (hgoal : project.balance ≤ project.goal.toNat)
    (hbalance : project.balance < 2 ^ 256) (hentry : project.investors.get account = 0) :
    ∃ project', Lib.exec step project
        (List.replicate n (⟨account, 0, true⟩, Call.contribute)) = some project' ∧
      project'.investorCount = project.investorCount + BitVec.ofNat 256 n ∧
      project'.contributors = project.contributors ∧ project'.owner = project.owner ∧
      project'.payments = project.payments ∧ project'.balance = project.balance := by
  induction n generalizing project with
  | zero => exact ⟨project, rfl, by simp, rfl, rfl, rfl, rfl⟩
  | succ n ih =>
      have hsame : (project.credit ⟨account, 0, true⟩).contributors = project.contributors := by
        simp [contributors, credit, List.filter_append]
      have hentry' : (project.credit ⟨account, 0, true⟩).investors.get account = 0 := by
        simp [credit, hentry]
      have hcount : (project.credit ⟨account, 0, true⟩).investorCount =
          project.investorCount + 1 := if_pos hentry
      obtain ⟨project', hexec, hcount', hcontributors, howner, hpayments, hbalance'⟩ :=
        @ih (project.credit ⟨account, 0, true⟩) hmin hgoal hbalance hentry'
      refine ⟨project', ?_, ?_, hcontributors.trans hsame, howner, hpayments, hbalance'⟩
      · rw [List.replicate_succ, Lib.exec, step_contribute_nothing hmin hgoal hbalance]
        exact hexec
      · rw [hcount', hcount, BitVec.add_assoc, BitVec.add_comm 1, BitVec.ofNat_add]
        rfl

/-- Three contributors, a payment of what they gave, and the vote of one of them. -/
def oneVote : List (Message × Call) :=
  [(⟨2, 1, true⟩, .contribute), (⟨3, 1, true⟩, .contribute), (⟨4, 1, true⟩, .contribute),
    (⟨1, 0, true⟩, .createPayment "" 3 1), (⟨2, 0, true⟩, .voteForPayment 0)]

def OneVote (project : Project) : Prop :=
  project.minInvest = 0 ∧ project.goal = 10 ∧ project.balance = 3 ∧ project.owner = 1 ∧
    project.investorCount = 3 ∧ project.investors.get 9 = 0 ∧
    ∃ payment ∈ project.payments[0]?, payment.completed = false ∧ payment.amount = 3 ∧
      payment.voterCount = 1 ∧ ¬ payment.Majority project.contributors

instance (project : Project) : Decidable (OneVote project) :=
  inferInstanceAs (Decidable (_ ∧ _))

theorem oneVote_reached :
    ∃ project ∈ Lib.exec step (create 1 "" 0 1 10) oneVote, OneVote project := by
  decide +kernel

/-- The counter of the investors wraps, and one of three contributors is a majority. -/
theorem majority_wraps :
    ∃ (run : Lib.Run (create 1 "" 0 1 10) step) (k : Nat) (index : Uint) (payment : Payment),
      k < run.length ∧ (run.act k).2 = .doPayment index ∧
      (run.state k).payments[index.toNat]? = some payment ∧
      ¬ payment.Majority (run.state k).contributors := by
  obtain ⟨n, hn⟩ : ∃ n, (3 : Uint) + BitVec.ofNat 256 n = 0 := ⟨2 ^ 256 - 3, by decide⟩
  obtain ⟨project, hreached, hmin, hgoal, hbalance, howner, hcount, hentry, payment, hpayment,
    hopen, hamount, hvotes, hfew⟩ := oneVote_reached
  obtain ⟨project', hexec, hcount', hcontributors, howner', hpayments, hbalance'⟩ :=
    @exec_contribute_nothing project 9 n hmin (by rw [hbalance, hgoal]; decide)
      (by rw [hbalance]; decide) hentry
  have hall : Lib.exec step (create 1 "" 0 1 10) (oneVote ++
      List.replicate n (⟨9, 0, true⟩, Call.contribute)) = some project' := by
    rw [Lib.exec_append, Option.mem_def.mp hreached]
    exact hexec
  have hpaid := @step_pay project' payment 0
    (by rw [hbalance', hbalance]; decide) (by rw [hpayments]; exact hpayment) hopen
    (by rw [hamount, hbalance', hbalance]; decide)
    (by rw [hcount', hcount, hn, hvotes]; decide)
  obtain ⟨run, hlength, hstate, hact, _⟩ := Lib.Run.exists_of_exec_last hall hpaid
  refine ⟨run, _, 0, payment, by rw [hlength]; exact Nat.lt_succ_self _, by rw [hact], ?_, ?_⟩
  · rw [hstate, hpayments]
    exact hpayment
  · rw [hstate, hcontributors]
    exact hfew

end Project

end BlockchainTutorial.Crowdfunding
