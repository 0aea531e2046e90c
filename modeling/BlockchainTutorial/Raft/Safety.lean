import BlockchainTutorial.Raft.Replication

namespace BlockchainTutorial.Raft

variable {n : Nat} {C D : Type}

/-! State machine safety: servers deliver one command for one index. -/

inductive CommitStep (s : Cluster n C D) (a : Action n C D) (i : Fin n)
    (rf : Raft n C D) : Prop
  | kept (hcommit : rf.commitIndex = (s.rafts i).commitIndex)
  | broadcast (hact : a = .loop i .proceed) (hloop : (s.rafts i).loop = .leader)
      (hform : rf = { ((s.rafts i).boatcastAppendEntries i).1 with loop := .top })
  | learned (l : Nat) (call : Rpc n (AppendEntriesArgs n C) AppendEntriesReply)
      (hact : a = .appendEntries l)
      (hcall : s.appendEntries[l]? = some call)
      (hnew : rf.currentTerm = call.args.term)
      (hmatch : 1 ≤ call.args.prevLogIndex → ∃ prev,
        (s.rafts i).log[call.args.prevLogIndex]? = some prev ∧
          prev.logTerm = call.args.prevLogTerm)
      (hlog : rf.log =
        (s.rafts i).log.take (call.args.prevLogIndex + 1) ++ call.args.entries)
      (hcommit : rf.commitIndex ≤ call.args.leaderCommit)

theorem CommitStep.of_local {s : Cluster n C D} {a : Action n C D} {i : Fin n}
    {rf : Raft n C D} {eff : Effects n C D} (hno : NoSnapshots s a)
    (hplain : PlainLog (s.rafts i).log) (hlocal : Local s a i rf eff) :
    CommitStep s a i rf := by
  cases hlocal with
  | start i command =>
      rcases start_cases (s.rafts i) command with hout | ⟨last, _, _, hout⟩
      · exact .kept (by rw [hout])
      · exact .kept (by rw [hout]; rfl)
  | startSnapshot => cases hno.action
  | loop i choice hstep =>
      cases loopStep_outcome hstep with
      | broadcast hloop => exact .broadcast rfl hloop rfl
      | lead term hloop =>
          rcases becomeLeader_cases (s.rafts i) with hlead | ⟨last, _, hlead⟩
          · exact .kept (by rw [hlead])
          · exact .kept (by rw [hlead])
      | _ => exact .kept rfl
  | boatcastRequestVote i job hstep =>
      obtain ⟨jobs, rfl⟩ := boatcastRequestVote_fst hstep
      exact .kept rfl
  | applyCommitted i hstep =>
      obtain ⟨applied, chan, rfl⟩ := applyCommitted_fst hstep
      exact .kept rfl
  | applySnapshot i hstep =>
      obtain ⟨snapshots, rfl⟩ := applySnapshot_fst hstep
      exact .kept rfl
  | requestVote k => exact .kept (requestVote_frame _ _).2
  | sendRequestVote k => exact .kept (sendRequestVote_frame _ _ _).2
  | appendEntries k hcall =>
      rename_i call _
      have houtcome := appendEntries_outcome (s.rafts call.server) call.args
      generalize ((s.rafts call.server).appendEntries call.args).1 = rf at houtcome ⊢
      cases houtcome with
      | rejected => exact .kept (by rw [persist_commitIndex, observeTerm_commitIndex])
      | below _ _ _ base _ hbase hbelow =>
          rw [hplain.head] at hbase
          obtain rfl := Option.some.inj hbase
          cases hbelow
      | accepted _ _ _ base _ _ hterm hbase _ _ _ hprev hcommit =>
          rw [hplain.head] at hbase
          obtain rfl := Option.some.inj hbase
          rcases hcommit with hsame | ⟨last, hlast, hmin⟩
          · exact .kept hsame
          · exact .learned k call rfl hcall (observeTerm_currentTerm hterm) hprev rfl
              (hmin ▸ Nat.min_le_left _ _)
  | sendAppendEntries k => exact .kept (sendAppendEntries_frame _ _ _ _).2
  | installSnapshot k hcall => simp [hno.calls] at hcall
  | sendInstallSnapshot k hcall => simp [hno.calls] at hcall

theorem make_commitIndex {p : Persister n C D} (h : p.snapshot = none) :
    (make p).commitIndex = 0 := by
  obtain ⟨raftstate, snapshot⟩ := p
  obtain rfl : snapshot = none := h
  cases raftstate <;> rfl

/-- A log up to an index is what a majority has held in some term so far. -/
def Settled (run : ClusterRun n C D) (bound : Nat) (log : List (LogEntry C))
    (index : Nat) : Prop :=
  index = 0 ∨ ∃ term front, Committed run term front ∧ term ≤ bound ∧
    index < front.length ∧ front.take (index + 1) <+: log

theorem Settled.mono {run : ClusterRun n C D} {bound bound' index index' : Nat}
    {log log' : List (LogEntry C)} (h : Settled run bound log index)
    (hbound : bound ≤ bound') (hlog : log <+: log') (hindex : index' ≤ index) :
    Settled run bound' log' index' := by
  rcases h with hzero | ⟨term, front, hcommitted, hle, hlength, hfront⟩
  · exact .inl (by omega)
  · refine .inr ⟨term, front, hcommitted, by omega, by omega, ?_⟩
    have htake : front.take (index' + 1) <+: front.take (index + 1) :=
      List.take_prefix_take_left (by omega)
    exact (htake.trans hfront).trans hlog

section Safety

variable {run : ClusterRun n C D} (hno : run.AllSteps fun _ a => noStartSnapshot a)
  (hunique : UniqueLeaders run) (hcount : CountsOnce run)
  (htoken : run.AllSteps fun s a => tokenFresh s a)
  (hkeeps : run.AllSteps fun s a => keepsAgreed s a)
  (hcommits : run.AllSteps fun s a => commitsAsLeader s a)

include hno hunique hcount htoken

theorem committed_total (hkeeps : run.AllSteps fun s a => keepsAgreed s a)
    {term term' : Nat} {front front' : List (LogEntry C)}
    (h : Committed run term front) (h' : Committed run term' front') :
    front <+: front' ∨ front' <+: front := by
  have ordered : ∀ {term term' : Nat} {front front' : List (LogEntry C)}, term ≤ term' →
      Committed run term front → Committed run term' front' →
      front <+: front' ∨ front' <+: front := by
    intro term term' front front' hle h h'
    obtain ⟨k, i, hk, hleads, hfront'⟩ := h'.led
    rcases Nat.eq_or_lt_of_le hle with heq | hlt
    · rw [← heq] at hleads
      rcases h.toLedPrefix.comparable hunique hno hk hleads with hfront | hfront
      · exact List.prefix_or_prefix_of_prefix hfront hfront'
      · exact .inr (hfront'.trans hfront)
    · have hfront := leader_completeness hno hunique hcount htoken hkeeps h term' hlt k i hk
        hleads
      exact List.prefix_or_prefix_of_prefix hfront hfront'
  rcases Nat.le_total term term' with hle | hle
  · exact ordered hle h h'
  · exact (ordered hle h' h).symm

include hcommits in
theorem settled_broadcast {k : Nat} (hk : k < run.length) {i : Fin n}
    (hact : run.act k = .loop i .proceed) (hloop : ((run.state k).rafts i).loop = .leader)
    (h : Settled run ((run.state k).rafts i).currentTerm ((run.state k).rafts i).log
      ((run.state k).rafts i).commitIndex) :
    Settled run ((run.state k).rafts i).currentTerm ((run.state k).rafts i).log
      (((run.state k).rafts i).boatcastAppendEntries i).1.commitIndex := by
  rcases boatcastAppendEntries_commit i ((run.state k).rafts i) with
    heq | ⟨last, num, hlast, hle, hpos, hnum, hmajority⟩
  · rwa [heq]
  · have hcommit := hcommits k hk
    simp only [hact, commitsAsLeader, hloop, bne_self_eq_false, Bool.false_or,
      Bool.or_eq_true, beq_iff_eq] at hcommit
    rcases hcommit with hstate | hsame
    · have hlength := ((plain_run run hno k hk.le).servers i).log.last hlast
      refine .inr ⟨_, _, committed_of_advance hno hunique hcount htoken hk.le hstate hlast
        hle hpos hnum hmajority, Nat.le_refl _, ?_, ?_⟩
      · rw [List.length_take]
        omega
      · exact (List.take_prefix _ _).trans (List.take_prefix _ _)
    · rwa [hsame]

include hkeeps in
theorem settled_log {k : Nat} (hk : k < run.length) {i : Fin n} {rf : Raft n C D}
    {eff : Effects n C D} (hlocal : Local (run.state k) (run.act k) i rf eff) {index : Nat}
    (h : Settled run ((run.state k).rafts i).currentTerm ((run.state k).rafts i).log index) :
    Settled run rf.currentTerm rf.log index := by
  have hle := (BallotStep.of_local hlocal).term_le
  rcases log_step hno hunique hk hlocal with
    hlog | ⟨_, _, entry, _, hlog⟩ |
    ⟨l, call, j, hact, hcall, hserver, hj, hleads, hnew, hlog, haccepts, hprev, hcut⟩
  · exact h.mono hle (by rw [hlog]) (Nat.le_refl _)
  · exact h.mono hle (by rw [hlog]; exact List.prefix_append _ _) (Nat.le_refl _)
  · rcases h with hzero | ⟨term, front, hcommitted, hterm, hlength, hfront⟩
    · exact .inl hzero
    · refine .inr ⟨term, front, hcommitted, by omega, hlength, ?_⟩
      rw [hlog]
      rw [hnew] at hle
      rcases Nat.eq_or_lt_of_le (show term ≤ call.args.term by omega) with heq | hlt
      · rw [← heq] at hleads
        rcases hcommitted.toLedPrefix.comparable hunique hno (by omega) hleads with
          hinside | hinside
        · exact (List.take_prefix _ _).trans hinside
        · rcases List.prefix_or_prefix_of_prefix (List.take_prefix (index + 1) front)
            hinside with hdone | hshort
          · exact hdone
          · -- a late request of the leader would cut off what is settled
            have hsame := log_of_shorter hkeeps hk hact hcall hserver haccepts hprev hcut
              (hlog ▸ hshort.trans hfront)
            rwa [← hlog, hsame]
      · exact (List.take_prefix _ _).trans (leader_completeness hno hunique hcount htoken
          hkeeps hcommitted call.args.term hlt j call.caller (by omega) hleads)

include hkeeps hcommits in
theorem settled_run : ∀ k, k ≤ run.length → ∀ i,
    Settled run ((run.state k).rafts i).currentTerm ((run.state k).rafts i).log
      ((run.state k).rafts i).commitIndex := by
  refine run.induct_strong ?_ ?_
  · intro i
    rw [run.starts]
    exact .inl rfl
  · intro k hk ih i
    obtain ⟨rf, hrf, hnext⟩ := server_step run hno hk i
    have hplain := plain_run run hno k hk.le
    have hold := ih k (Nat.le_refl k) i
    have hsettled : Settled run rf.currentTerm rf.log rf.commitIndex := by
      rcases hrf with rfl | ⟨eff, hlocal⟩
      · exact hold
      · cases CommitStep.of_local ⟨hno k hk, hplain.calls⟩ (hplain.servers i).log hlocal with
        | kept hcommit =>
            rw [hcommit]
            exact settled_log hno hunique hcount htoken hkeeps hk hlocal hold
        | broadcast hact hloop hform =>
            obtain ⟨commit, chan, hsent⟩ :=
              boatcastAppendEntries_fst i ((run.state k).rafts i)
            have hdone := settled_broadcast hno hunique hcount htoken hcommits hk hact hloop
              hold
            rw [hform, hsent]
            rwa [hsent] at hdone
        | learned l call hact hcall hnew hmatch hlog hcommit =>
            -- the sender had settled what it says is committed
            obtain ⟨j, hj, hloop, hsend, hreplicates⟩ :=
              appendEntries_run run k hk.le call (List.mem_of_getElem? hcall)
            have hdone := settled_broadcast hno hunique hcount htoken hcommits (by omega)
              hsend hloop (ih j hj.le call.caller)
            rw [← hreplicates.leaderCommit_eq] at hdone
            obtain ⟨commit, chan, hsent⟩ :=
              boatcastAppendEntries_fst call.caller ((run.state j).rafts call.caller)
            rw [hsent] at hreplicates
            have hsource := ((plain_run run hno j (by omega)).servers call.caller).log
            have hterm : call.args.term = ((run.state j).rafts call.caller).currentTerm :=
              hreplicates.term_eq
            rw [hlog, accepted_log hno hunique hk.le (show j ≤ run.length by omega)
              (sourced_run hno hunique k hk.le i)
              (sourced_run hno hunique j (by omega) call.caller)
              (hreplicates.plain hsource) hmatch]
            exact hdone.mono (by omega) List.prefix_rfl hcommit
    rcases hnext.cases with heq | heq
    · rwa [heq]
    · have hsnapshot := ((plain_run run hno (k + 1) hk).servers i).saved.snapshot_eq
      rw [heq, make_persister] at hsnapshot
      exact .inl (by rw [heq, make_commitIndex hsnapshot])

include hkeeps hcommits in
theorem delivered_run : ∀ k, k ≤ run.length → ∀ i msg,
    (i, msg) ∈ (run.state k).delivered →
    msg.index = 0 ∧ msg.command = none ∨
      ∃ term front entry, Committed run term front ∧ front[msg.index]? = some entry ∧
        msg.command = entry.logComd := by
  refine run.induct ?_ ?_
  · intro i msg hmem
    rw [run.starts] at hmem
    cases hmem
  · intro k hk ih i msg hmem
    rcases Cluster.step_cases (run.steps k hk) with
      ⟨j, _, heq⟩ | ⟨j, rf, eff, hlocal, heq⟩
    · rw [heq] at hmem
      exact ih i msg hmem
    · rw [heq, Cluster.moved_delivered, Cluster.touched_delivered] at hmem
      rcases List.mem_append.mp hmem with hold | hnew
      · exact ih i msg hold
      · obtain ⟨msg', happlied, hpair⟩ := List.mem_map.mp hnew
        obtain ⟨rfl, rfl⟩ := Prod.mk.inj hpair
        rcases hlocal.sends.applied_of_mem happlied with
          hsnapshot | ⟨hpos, hle, entry, hentry, hcommand⟩
        · exact .inl hsnapshot
        · have hhead := ((plain_run run hno k hk.le).servers j).log.head
          have hget : ((run.state k).rafts j).log[msg'.index]? = some entry := by
            simpa [entryAt, hhead] using hentry
          rcases settled_run hno hunique hcount htoken hkeeps hcommits k hk.le j with
            hzero | ⟨term, front, hcommitted, _, hlength, hfront⟩
          · omega
          · refine .inr ⟨term, front, entry, hcommitted, ?_, hcommand⟩
            have hlt : msg'.index < front.length := by omega
            have hsettled : (front.take (((run.state k).rafts j).commitIndex + 1))[msg'.index]? =
                some front[msg'.index] := by
              rw [List.getElem?_take_of_lt (by omega), List.getElem?_eq_getElem hlt]
            rw [List.getElem?_eq_getElem hlt]
            exact congrArg some (getElem?_unique (.inl hfront) hsettled hget)

end Safety

theorem state_machine_safety (run : ClusterRun n C D)
    (hno : run.AllSteps fun _ a => noStartSnapshot a) (hunique : UniqueLeaders run)
    (hcount : CountsOnce run) (htoken : run.AllSteps fun s a => tokenFresh s a)
    (hkeeps : run.AllSteps fun s a => keepsAgreed s a)
    (hcommits : run.AllSteps fun s a => commitsAsLeader s a) {k : Nat}
    (hk : k ≤ run.length) {i j : Fin n} {msg msg' : ApplyMsg C D}
    (hmsg : (i, msg) ∈ (run.state k).delivered)
    (hmsg' : (j, msg') ∈ (run.state k).delivered) (hindex : msg.index = msg'.index) :
    msg.command = msg'.command := by
  have hzero : ∀ {term : Nat} {front : List (LogEntry C)} {entry : LogEntry C},
      Committed run term front → front[0]? = some entry → entry.logComd = none := by
    intro term front entry hcommitted hget
    obtain ⟨k', i', hk', _, hheld⟩ := hcommitted.led
    have hplain := ((plain_run run hno k' hk').servers i').log.zero
    rw [getElem?_unique (.inl hheld) hget hplain]
  rcases delivered_run hno hunique hcount htoken hkeeps hcommits k hk i msg hmsg with
    ⟨hindex0, hnone⟩ | ⟨term, front, entry, hcommitted, hget, hcommand⟩
  · rcases delivered_run hno hunique hcount htoken hkeeps hcommits k hk j msg' hmsg' with
      ⟨_, hnone'⟩ | ⟨term', front', entry', hcommitted', hget', hcommand'⟩
    · rw [hnone, hnone']
    · rw [← hindex, hindex0] at hget'
      rw [hnone, hcommand', hzero hcommitted' hget']
  · rcases delivered_run hno hunique hcount htoken hkeeps hcommits k hk j msg' hmsg' with
      ⟨hindex0, hnone'⟩ | ⟨term', front', entry', hcommitted', hget', hcommand'⟩
    · rw [hindex, hindex0] at hget
      rw [hnone', hcommand, hzero hcommitted hget]
    · rw [hindex] at hget
      have hsame : entry = entry' := getElem?_unique
        (committed_total hno hunique hcount htoken hkeeps hcommitted hcommitted') hget hget'
      rw [hcommand, hcommand', hsame]

/-- The first command is acknowledged by server 1, committed, and delivered at both. -/
def firstDelivery : List (Action 3 Nat Unit) :=
  firstCommand ++ [.sendAppendEntries 0, .loop 0 .proceed, .loop 0 .proceed,
    .applyCommitted 0, .appendEntries 2, .applyCommitted 1]

theorem firstDelivery_ledBy : Lib.checkStates Cluster.step (ledBy fun _ => 0)
    (Cluster.init 3 Nat Unit) firstDelivery = true := by decide +kernel

def firstDeliveryRun : ClusterRun 3 Nat Unit :=
  Lib.Run.ofActions firstDelivery (Lib.exec_isSome_of_checkStates firstDelivery_ledBy)

theorem state_machine_safety_first :
    (firstDeliveryRun.state 22).delivered =
      [(0, ⟨1, some 10, false, none⟩), (1, ⟨1, some 10, false, none⟩)] ∧
    some 10 = some 10 := by
  have hdelivered : (firstDeliveryRun.state 22).delivered =
      [(0, ⟨1, some 10, false, none⟩), (1, ⟨1, some 10, false, none⟩)] := by
    decide +kernel
  have hno : firstDeliveryRun.AllSteps fun _ a => noStartSnapshot a := by decide +kernel
  have hcount : CountsOnce firstDeliveryRun := by decide +kernel
  have htoken : firstDeliveryRun.AllSteps fun s a => tokenFresh s a := by decide +kernel
  have hkeeps : firstDeliveryRun.AllSteps fun s a => keepsAgreed s a := by decide +kernel
  have hcommits : firstDeliveryRun.AllSteps fun s a => commitsAsLeader s a := by
    decide +kernel
  have hzero : (0, ⟨1, some 10, false, none⟩) ∈ (firstDeliveryRun.state 22).delivered := by
    rw [hdelivered]
    exact List.mem_cons_self
  have hone : (1, ⟨1, some 10, false, none⟩) ∈ (firstDeliveryRun.state 22).delivered := by
    rw [hdelivered]
    exact List.mem_cons_of_mem _ List.mem_cons_self
  exact ⟨hdelivered, state_machine_safety firstDeliveryRun hno
    (uniqueLeaders_of_ledBy firstDelivery_ledBy) hcount htoken hkeeps hcommits (by decide)
    hzero hone rfl⟩

/-- The leader of term 1 sends one entry, then two. Server 1 acknowledges both, the
leader delivers them, and the first request comes late and cuts the second entry off
server 1, which then leads term 2. -/
def lateRequest : List (Action 3 Nat Unit) :=
  firstElection ++ [.start 0 10, .loop 0 .proceed, .loop 0 .proceed, .start 0 20,
    .loop 0 .proceed, .loop 0 .proceed, .appendEntries 1, .appendEntries 2,
    .sendAppendEntries 2, .loop 0 .proceed, .loop 0 .proceed, .applyCommitted 0,
    .appendEntries 0] ++
  standForElection 1 0 ++ [.requestVote 3, .sendRequestVote 3, .loop 1 .chanLeader,
    .loop 1 .proceed, .start 1 30, .loop 1 .proceed, .loop 1 .proceed, .appendEntries 7,
    .sendAppendEntries 7, .loop 1 .proceed, .loop 1 .proceed, .applyCommitted 1]

theorem lateRequest_ledBy : Lib.checkStates Cluster.step
    (ledBy fun term => if term = 1 then 0 else 1) (Cluster.init 3 Nat Unit) lateRequest =
      true := by decide +kernel

def lateRequestRun : ClusterRun 3 Nat Unit :=
  Lib.Run.ofActions lateRequest (Lib.exec_isSome_of_checkStates lateRequest_ledBy)

theorem state_machine_unsafe : ¬ ∀ run : ClusterRun 3 Nat Unit,
    (run.AllSteps fun _ a => noStartSnapshot a) → UniqueLeaders run →
    ∀ k, k ≤ run.length → ∀ i j msg msg', (i, msg) ∈ (run.state k).delivered →
      (j, msg') ∈ (run.state k).delivered → msg.index = msg'.index →
      msg.command = msg'.command := by
  intro hsafe
  have hno : lateRequestRun.AllSteps fun _ a => noStartSnapshot a := by decide +kernel
  have hdelivered : (lateRequestRun.state 45).delivered =
      [(0, ⟨1, some 10, false, none⟩), (0, ⟨2, some 20, false, none⟩),
        (1, ⟨1, some 10, false, none⟩), (1, ⟨2, some 30, false, none⟩)] := by
    decide +kernel
  have hsame := hsafe lateRequestRun hno (uniqueLeaders_of_ledBy lateRequest_ledBy) 45
    (by decide) 0 1 ⟨2, some 20, false, none⟩ ⟨2, some 30, false, none⟩
    (by rw [hdelivered]; simp) (by rw [hdelivered]; simp) rfl
  exact absurd hsame (by decide)

end BlockchainTutorial.Raft
