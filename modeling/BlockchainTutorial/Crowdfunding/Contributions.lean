import BlockchainTutorial.Crowdfunding.Payouts

namespace BlockchainTutorial.Crowdfunding

open Auction (Uint Address Message)

namespace Project

variable {project project' : Project}

/-! The goal, when payments are made between contributions. -/

theorem step_goal {action : Message × Call} (hstep : project.step action = some project') :
    project'.goal = project.goal := by
  rcases step_cases hstep with ⟨_, _, rfl⟩ | ⟨_, _, _, _, rfl⟩ | ⟨_, _, _, _, _, _, rfl⟩ |
    ⟨_, _, _, _, _, _, _, rfl⟩ <;> rfl

theorem totalContributed_credit (project : Project) (msg : Message) :
    (project.credit msg).totalContributed = project.totalContributed + msg.value.toNat := by
  simp [totalContributed, credit]

theorem step_totalContributed {action : Message × Call}
    (hstep : project.step action = some project') :
    project'.totalContributed = project.totalContributed ∨
      (action.2 = .contribute ∧
        project'.totalContributed = project.totalContributed + action.1.value.toNat) := by
  rcases step_cases hstep with ⟨hact, _, rfl⟩ | ⟨_, _, _, _, rfl⟩ | ⟨_, _, _, _, _, _, rfl⟩ |
    ⟨_, _, _, _, _, _, _, rfl⟩
  · exact .inr ⟨hact, totalContributed_credit project action.1⟩
  · exact .inl rfl
  · exact .inl rfl
  · exact .inl rfl

/-- A contribution leaves room under the goal for what was paid out before. -/
def RoomLeft (project : Project) (action : Message × Call) : Prop :=
  action.2 = .contribute →
    project.balance + action.1.value.toNat + project.paidOut ≤ project.goal.toNat

section Goal

variable {owner : Address} {description : String} {minInvest maxInvest goal : Uint}
  (run : Lib.Run (create owner description minInvest maxInvest goal) step)

theorem run_goal : ∀ k, k ≤ run.length → (run.state k).goal = goal :=
  run.invariant (P := fun project => project.goal = goal) rfl
    fun _ _ _ h hstep => (step_goal hstep).trans h

theorem goal_kept_iff :
    (∀ k, k ≤ run.length → (run.state k).totalContributed ≤ goal.toNat) ↔
      run.AllSteps RoomLeft := by
  constructor
  · intro hkept k hk hact
    have hether := (accounted_run run k (by omega)).ether
    have hcontributed : (run.state (k + 1)).totalContributed =
        (run.state k).totalContributed + (run.act k).1.value.toNat := by
      rcases step_cases (run.steps k hk) with ⟨_, _, h⟩ | ⟨_, _, _, hother, _⟩ |
        ⟨_, _, hother, _⟩ | ⟨_, _, hother, _⟩
      · rw [h]
        exact totalContributed_credit _ _
      all_goals rw [hact] at hother; cases hother
    have hnext := hkept (k + 1) hk
    rw [run_goal run k (by omega)]
    omega
  · intro hroom
    refine run.induct ?_ ?_
    · rw [run.starts]
      exact Nat.zero_le _
    · intro k hk ih
      have hether := (accounted_run run k (by omega)).ether
      rcases step_totalContributed (run.steps k hk) with hsame | ⟨hact, hmore⟩
      · rwa [hsame]
      · have hle := hroom k hk hact
        rw [run_goal run k (by omega)] at hle
        omega

end Goal

/-- What was paid out is contributed once more. -/
theorem goal_exceeded :
    ∃ run : Lib.Run (create 1 "" 1 10 10) step,
      (run.state run.length).totalContributed = 20 := by
  have hexec : (Lib.exec step (create 1 "" 1 10 10)
      [(⟨2, 10, true⟩, .contribute), (⟨1, 0, true⟩, .createPayment "" 10 3),
        (⟨2, 0, true⟩, .voteForPayment 0), (⟨1, 0, true⟩, .doPayment 0),
        (⟨2, 10, true⟩, .contribute)]).map totalContributed = some 20 := by decide +kernel
  obtain ⟨run, _, htotal⟩ := Lib.Run.exists_of_exec hexec
  exact ⟨run, htotal⟩

/-! The counter and the entries. -/

/-- The addresses whose entry is positive. -/
def investorList (project : Project) : List Address :=
  project.investors.holders (0 < ·)

/-- The entry of the sender is positive after a contribution. -/
def EntryLeft (project : Project) (action : Message × Call) : Prop :=
  action.2 = .contribute → 0 < project.investors.get action.1.sender + action.1.value

/-- The counter counts the positive entries. -/
def CountRight (project : Project) : Prop :=
  project.investorCount.toNat = project.investorList.length

instance (project : Project) : Decidable (CountRight project) :=
  inferInstanceAs (Decidable (_ = _))

theorem length_investorList_credit (project : Project) (msg : Message) :
    (project.credit msg).investorList.length +
        (if 0 < project.investors.get msg.sender then 1 else 0) =
      project.investorList.length +
        if 0 < project.investors.get msg.sender + msg.value then 1 else 0 := by
  have hlength := Lib.Mapping.length_holders_set (p := (0 < ·)) project.investors msg.sender
    (project.investors.get msg.sender + msg.value) (by decide)
  simp only [decide_eq_true_iff] at hlength
  exact hlength

theorem countRight_credit_iff (h : project.CountRight) (msg : Message) :
    (project.credit msg).CountRight ↔
      0 < project.investors.get msg.sender + msg.value := by
  have hlength := length_investorList_credit project msg
  have hbound := Payment.length_le_addresses
    (Lib.Mapping.nodup_holders (p := (0 < ·)) project.investors)
  have hcount : project.investorCount.toNat = project.investorList.length := h
  have hone : (project.investorCount + 1).toNat = project.investorCount.toNat + 1 := by
    rw [BitVec.toNat_add, show (1 : Uint).toNat = 1 from rfl, Nat.mod_eq_of_lt]
    rw [hcount, investorList]
    omega
  have hcredit : (project.credit msg).investorCount.toNat +
      (if 0 < project.investors.get msg.sender then 1 else 0) =
        project.investorCount.toNat + 1 := by
    by_cases hentry : project.investors.get msg.sender = 0
    · rw [show (project.credit msg).investorCount = project.investorCount + 1 from
        if_pos hentry, hone, hentry, if_neg (by decide)]
    · have hpos : 0 < project.investors.get msg.sender := (BitVec.pos_iff_ne_zero _).mpr hentry
      rw [show (project.credit msg).investorCount = project.investorCount from
        if_neg hentry, if_pos hpos]
  rw [CountRight]
  by_cases hleft : 0 < project.investors.get msg.sender + msg.value
  · rw [if_pos hleft] at hlength
    exact ⟨fun _ => hleft, fun _ => by omega⟩
  · rw [if_neg hleft] at hlength
    exact ⟨fun _ => by omega, fun h => absurd h hleft⟩

theorem step_investorCount {action : Message × Call}
    (hstep : project.step action = some project') :
    (project'.investorCount = project.investorCount ∧
        project'.investors = project.investors ∧ action.2 ≠ .contribute) ∨
      (action.2 = .contribute ∧ project' = project.credit action.1) := by
  rcases step_cases hstep with ⟨hact, _, h⟩ | ⟨_, _, _, hact, rfl⟩ |
    ⟨_, _, hact, _, _, _, rfl⟩ | ⟨_, _, hact, _, _, _, _, rfl⟩
  · exact .inr ⟨hact, h⟩
  all_goals exact .inl ⟨rfl, rfl, by rw [hact]; nofun⟩

section Investors

variable {list list' : ProjectList} {msg : Message} {newProject : Address}
  {description : String} {minInvest maxInvest goal : Uint}

/-- The counter is right, and no account without money in the project moves it. -/
theorem investorCount_right_iff
    (hcreate : list.createProject msg newProject description minInvest maxInvest goal =
      .ok (list', project))
    (run : Lib.Run project step) :
    ((∀ k, k ≤ run.length → (run.state k).CountRight) ∧
      ∀ k, k < run.length →
        (run.state (k + 1)).investors.get (run.act k).1.sender = 0 →
          (run.state (k + 1)).investorCount = (run.state k).investorCount) ↔
      run.AllSteps EntryLeft := by
  constructor
  · rintro ⟨hright, _⟩ k hk hact
    rcases step_investorCount (run.steps k hk) with ⟨_, _, hother⟩ | ⟨_, hnext⟩
    · exact absurd hact hother
    · have hafter := hright (k + 1) hk
      rw [hnext] at hafter
      exact (countRight_credit_iff (hright k (by omega)) _).mp hafter
  · intro hleft
    constructor
    · refine run.induct ?_ ?_
      · rw [run.starts, createProject_eq_ok hcreate]
        exact rfl
      · intro k hk ih
        rcases step_investorCount (run.steps k hk) with ⟨hcount, hinvestors, _⟩ | ⟨hact, hnext⟩
        · rw [CountRight, investorList, hcount, hinvestors]
          exact ih
        · rw [hnext]
          exact (countRight_credit_iff ih _).mpr (hleft k hk hact)
    · intro k hk hnone
      rcases step_investorCount (run.steps k hk) with ⟨hcount, _, _⟩ | ⟨hact, hnext⟩
      · exact hcount
      · rw [hnext, credit, Lib.Mapping.get_set_self] at hnone
        have hpos := hleft k hk hact
        rw [hnone] at hpos
        exact absurd hpos (by decide)

end Investors

/-- Two accounts contribute, one of them twice. -/
def contributed : List (Message × Call) :=
  [(⟨2, 4, true⟩, .contribute), (⟨3, 1, true⟩, .contribute), (⟨2, 4, true⟩, .contribute)]

theorem contributed_exec : (Lib.exec step (create 1 "" 1 10 10) contributed).isSome := by
  decide +kernel

theorem createProject_contributed :
    (ProjectList.mk []).createProject ⟨1, 0, true⟩ 7 "" 1 10 10 =
      .ok (⟨[7]⟩, create 1 "" 1 10 10) := rfl

theorem investorCount_right_contributions :
    ∃ list project, (ProjectList.mk []).createProject ⟨1, 0, true⟩ 7 "" 1 10 10 =
        .ok (list, project) ∧
      ∃ run : Lib.Run project step,
        run.length = 3 ∧ ∀ k, k ≤ run.length → (run.state k).CountRight := by
  refine ⟨_, _, createProject_contributed, .ofActions contributed contributed_exec, rfl, ?_⟩
  have hentries : ∀ k, k < 3 → 0 <
      ((Lib.Run.ofActions contributed contributed_exec).state k).investors.get
          ((Lib.Run.ofActions contributed contributed_exec).act k).1.sender +
        ((Lib.Run.ofActions contributed contributed_exec).act k).1.value := by
    decide +kernel
  exact ((investorCount_right_iff createProject_contributed _).mpr
    fun k hk _ => hentries k hk).1

/-- A contribution of nothing is counted. -/
theorem counted_without_money :
    ∃ list project, (ProjectList.mk []).createProject ⟨1, 0, true⟩ 7 "" 0 10 10 =
        .ok (list, project) ∧
      ∃ run : Lib.Run project step, ¬ (run.state run.length).CountRight := by
  refine ⟨_, _, rfl, ?_⟩
  have hexec : (Lib.exec step (create 1 "" 0 10 10)
      [(⟨9, 0, true⟩, .contribute)]).map (fun project => decide project.CountRight) =
        some false := by
    decide +kernel
  obtain ⟨run, _, hwrong⟩ := Lib.Run.exists_of_exec hexec
  exact ⟨run, of_decide_eq_false hwrong⟩

end Project

end BlockchainTutorial.Crowdfunding
