import BlockchainTutorial.Raft.Handlers
import BlockchainTutorial.Raft.Steps

namespace BlockchainTutorial.Raft

/-! What a step puts on the network and on `applyCh`, and what it does to the
calls already there. -/

variable {n : Nat} {C D : Type}

theorem start_snd (rf : Raft n C D) (command : C) :
    ∃ panicked, (rf.start command).2 = { panicked := panicked } := by
  unfold start
  repeat' split
  · exact ⟨true, rfl⟩
  · exact ⟨false, rfl⟩
  · exact ⟨false, rfl⟩

theorem startSnapshot_snd (rf : Raft n C D) (snapshot : D) (index : Nat) :
    ∃ panicked, (rf.startSnapshot snapshot index).2 = { panicked := panicked } := by
  unfold startSnapshot
  repeat' split
  · exact ⟨false, rfl⟩
  · exact ⟨true, rfl⟩
  · exact ⟨false, rfl⟩
  · exact ⟨true, rfl⟩

theorem applyFrom_snd (rf : Raft n C D) (i count : Nat) :
    ∃ applied panicked, (rf.applyFrom i count).2 =
        { applied := applied, panicked := panicked } ∧
      ∀ msg ∈ applied, i ≤ msg.index ∧ msg.index < i + count ∧
        ∃ entry, rf.entryAt msg.index = some entry ∧
          msg = ⟨msg.index, entry.logComd, false, none⟩ := by
  induction count generalizing rf i with
  | zero => exact ⟨[], false, rfl, by simp⟩
  | succ count ih =>
      unfold applyFrom
      split
      · exact ⟨[], true, rfl, by simp⟩
      · next entry hentry =>
          obtain ⟨applied, panicked, hsnd, hmem⟩ := ih { rf with lastApplied := i } (i + 1)
          refine ⟨⟨i, entry.logComd, false, none⟩ :: applied, panicked, by simp [hsnd], ?_⟩
          intro msg hmsg
          rcases List.mem_cons.mp hmsg with rfl | hmsg
          · exact ⟨Nat.le_refl i, Nat.lt_add_of_pos_right (Nat.succ_pos count), entry,
              hentry, rfl⟩
          · obtain ⟨hlow, hhigh, hrest⟩ := hmem msg hmsg
            exact ⟨by omega, by omega, hrest⟩

theorem applyCommitted_snd {rf rf' : Raft n C D} {eff : Effects n C D}
    (h : rf.applyCommitted = some (rf', eff)) :
    ∃ applied panicked, eff = { applied := applied, panicked := panicked } ∧
      ∀ msg ∈ applied, 1 ≤ msg.index ∧ msg.index ≤ rf.commitIndex ∧
        ∃ entry, rf.entryAt msg.index = some entry ∧
          msg = ⟨msg.index, entry.logComd, false, none⟩ := by
  unfold applyCommitted at h
  split at h
  · cases h
  · obtain ⟨applied, panicked, hsnd, hmem⟩ := applyFrom_snd
      { rf with chanCommit := rf.chanCommit - 1 } (rf.lastApplied + 1)
      (rf.commitIndex - rf.lastApplied)
    refine ⟨applied, panicked, (congrArg Prod.snd (Option.some.inj h)).symm.trans hsnd, ?_⟩
    intro msg hmsg
    obtain ⟨hlow, hhigh, hentry⟩ := hmem msg hmsg
    exact ⟨by omega, by omega, hentry⟩

theorem applySnapshot_snd {rf rf' : Raft n C D} {eff : Effects n C D}
    (h : rf.applySnapshot = some (rf', eff)) :
    ∃ applied, eff = { applied := applied } ∧
      ∀ msg ∈ applied, msg.index = 0 ∧ msg.command = none := by
  unfold applySnapshot at h
  split at h
  · cases h
  · exact ⟨_, (congrArg Prod.snd (Option.some.inj h)).symm, by simp⟩

theorem installSnapshot_applied (rf : Raft n C D) (args : InstallSnapshotArgs n D) :
    ∀ msg ∈ (rf.installSnapshot args).2.2, msg.index = 0 ∧ msg.command = none := by
  unfold installSnapshot
  split
  · simp
  · simp

theorem boatcastRequestVote_snd {me : Fin n} {rf rf' : Raft n C D} {job : Nat}
    {eff : Effects n C D} (h : rf.boatcastRequestVote me job = some (rf', eff)) :
    ∃ sent panicked, eff = { requestVotes := sent, panicked := panicked } ∧
      ∀ server args, (server, args) ∈ sent →
        server ≠ me ∧ rf.state = .candidate ∧
          ∃ next, VoteJob.sending args next ∈ rf.voteJobs := by
  unfold boatcastRequestVote at h
  split at h
  · cases h
  · split at h
    · exact ⟨[], true, (congrArg Prod.snd (Option.some.inj h)).symm, by simp⟩
    · exact ⟨[], false, (congrArg Prod.snd (Option.some.inj h)).symm, by simp⟩
  · next args next hjob =>
      split at h
      · obtain rfl := congrArg Prod.snd (Option.some.inj h)
        dsimp only
        split
        · next hsend =>
            refine ⟨_, false, rfl, ?_⟩
            intro server args' hmem
            obtain ⟨rfl, rfl⟩ := Prod.mk.inj (List.mem_singleton.mp hmem)
            exact ⟨hsend.1, hsend.2, next, List.mem_of_getElem? hjob⟩
        · exact ⟨[], false, rfl, by simp⟩
      · cases h

/-- A request that `boatcastAppendEntries` makes of the fields of its server. -/
structure Replicates (me : Fin n) (rf : Raft n C D) (server : Fin n)
    (args : AppendEntriesArgs n C) : Prop where
  other : server ≠ me
  leader : rf.state = .leader
  term_eq : args.term = rf.currentTerm
  leaderId_eq : args.leaderId = me
  prevLogIndex_eq : args.prevLogIndex = rf.nextIndex server - 1
  leaderCommit_eq : args.leaderCommit = rf.commitIndex
  slice : ∃ base prev, rf.log.head? = some base ∧
    base.logIndex < rf.nextIndex server ∧
    rf.log[args.prevLogIndex - base.logIndex]? = some prev ∧
    args.prevLogTerm = prev.logTerm ∧
    args.entries = rf.log.drop (args.prevLogIndex + 1 - base.logIndex)

theorem replicate_sent (me : Fin n) (rf : Raft n C D) (base : LogEntry C)
    (hbase : rf.log.head? = some base) (peers : List (Fin n)) :
    (rf.replicate me base peers).requestVotes = [] ∧
    (rf.replicate me base peers).applied = [] ∧
    (∀ server args, (server, args) ∈ (rf.replicate me base peers).appendEntries →
      Replicates me rf server args) ∧
    ∀ server args, (server, args) ∈ (rf.replicate me base peers).installSnapshots →
      rf.state = .leader ∧ rf.nextIndex server ≤ base.logIndex := by
  induction peers with
  | nil => exact ⟨rfl, rfl, by simp [replicate], by simp [replicate]⟩
  | cons peer peers ih =>
      obtain ⟨hvotes, happlied, happend, hinstall⟩ := ih
      unfold replicate
      split
      · next hpeer =>
          split
          · next hnext =>
              dsimp only
              split
              · exact ⟨rfl, rfl, by simp, by simp⟩
              · next prev hprev =>
                  refine ⟨hvotes, happlied, ?_, hinstall⟩
                  intro server args hmem
                  rcases List.mem_cons.mp hmem with heq | hmem
                  · obtain ⟨rfl, rfl⟩ := Prod.mk.inj heq
                    exact ⟨hpeer.1, hpeer.2, rfl, rfl, rfl, rfl,
                      base, prev, hbase, hnext, hprev, rfl, rfl⟩
                  · exact happend server args hmem
          · next hnext =>
              refine ⟨hvotes, happlied, happend, ?_⟩
              intro server args hmem
              rcases List.mem_cons.mp hmem with heq | hmem
              · obtain ⟨rfl, rfl⟩ := Prod.mk.inj heq
                exact ⟨hpeer.2, Nat.le_of_not_lt hnext⟩
              · exact hinstall server args hmem
      · exact ⟨hvotes, happlied, happend, hinstall⟩

theorem boatcastAppendEntries_snd (me : Fin n) (rf : Raft n C D) :
    (rf.boatcastAppendEntries me).2.requestVotes = [] ∧
    (rf.boatcastAppendEntries me).2.applied = [] ∧
    (∀ server args, (server, args) ∈ (rf.boatcastAppendEntries me).2.appendEntries →
      Replicates me (rf.boatcastAppendEntries me).1 server args) ∧
    ∀ server args, (server, args) ∈ (rf.boatcastAppendEntries me).2.installSnapshots →
      rf.state = .leader ∧ ∃ base, rf.log.head? = some base ∧
        rf.nextIndex server ≤ base.logIndex := by
  unfold boatcastAppendEntries
  split
  · next base last hbase hlast =>
      split
      · exact ⟨rfl, rfl, by simp, by simp⟩
      · dsimp only
        split
        · obtain ⟨hvotes, happlied, happend, hinstall⟩ :=
            replicate_sent me { rf with
              commitIndex := _, chanCommit := rf.chanCommit + 1 } base hbase (List.finRange n)
          refine ⟨hvotes, happlied, happend, fun server args hmem => ?_⟩
          exact ⟨(hinstall server args hmem).1, base, hbase, (hinstall server args hmem).2⟩
        · obtain ⟨hvotes, happlied, happend, hinstall⟩ :=
            replicate_sent me rf base hbase (List.finRange n)
          refine ⟨hvotes, happlied, happend, fun server args hmem => ?_⟩
          exact ⟨(hinstall server args hmem).1, base, hbase, (hinstall server args hmem).2⟩
  · exact ⟨rfl, rfl, by simp, by simp⟩

theorem loopStep_snd {me : Fin n} {rf rf' : Raft n C D} {choice : LoopChoice}
    {eff : Effects n C D} (h : rf.loopStep me choice = some (rf', eff)) :
    (choice = .proceed ∧ rf.loop = .leader ∧ eff = (rf.boatcastAppendEntries me).2) ∨
      ∃ panicked, eff = { panicked := panicked } := by
  cases loopStep_outcome h with
  | broadcast hloop => exact .inl ⟨rfl, hloop, rfl⟩
  | lead term hloop =>
      rcases becomeLeader_cases rf with hlead | ⟨last, _, hlead⟩
      · exact .inr ⟨true, by rw [hlead]⟩
      · exact .inr ⟨false, by rw [hlead]⟩
  | read => exact .inr ⟨false, rfl⟩
  | campaign => exact .inr ⟨false, rfl⟩
  | followerBeat => exact .inr ⟨false, rfl⟩
  | candidateBeat => exact .inr ⟨false, rfl⟩
  | voted => exact .inr ⟨false, rfl⟩
  | suspect => exact .inr ⟨false, rfl⟩
  | retry => exact .inr ⟨false, rfl⟩
  | token => exact .inr ⟨false, rfl⟩

inductive Sends (s : Cluster n C D) (a : Action n C D) (i : Fin n) : Effects n C D → Prop
  | quiet (panicked : Bool) : Sends s a i { panicked := panicked }
  | asks (sent : List (Fin n × RequestVoteArgs n)) (panicked : Bool)
      (hsent : ∀ server args, (server, args) ∈ sent →
        server ≠ i ∧ (s.rafts i).state = .candidate ∧
          ∃ next, VoteJob.sending args next ∈ (s.rafts i).voteJobs) :
      Sends s a i { requestVotes := sent, panicked := panicked }
  | replicates (hact : a = .loop i .proceed) (hloop : (s.rafts i).loop = .leader) :
      Sends s a i ((s.rafts i).boatcastAppendEntries i).2
  | applies (applied : List (ApplyMsg C D)) (panicked : Bool)
      (hact : a = .applyCommitted i)
      (happlied : ∀ msg ∈ applied, 1 ≤ msg.index ∧
        msg.index ≤ (s.rafts i).commitIndex ∧
        ∃ entry, (s.rafts i).entryAt msg.index = some entry ∧
          msg = ⟨msg.index, entry.logComd, false, none⟩) :
      Sends s a i { applied := applied, panicked := panicked }
  | snapshots (applied : List (ApplyMsg C D))
      (happlied : ∀ msg ∈ applied, msg.index = 0 ∧ msg.command = none) :
      Sends s a i { applied := applied }

theorem Local.sends {s : Cluster n C D} {a : Action n C D} {i : Fin n} {rf : Raft n C D}
    {eff : Effects n C D} (h : Local s a i rf eff) : Sends s a i eff := by
  cases h with
  | start i command =>
      obtain ⟨panicked, heq⟩ := start_snd (s.rafts i) command
      rw [heq]
      exact .quiet panicked
  | startSnapshot i snapshot index =>
      obtain ⟨panicked, heq⟩ := startSnapshot_snd (s.rafts i) snapshot index
      rw [heq]
      exact .quiet panicked
  | loop i choice hstep =>
      rcases loopStep_snd hstep with ⟨rfl, hloop, rfl⟩ | ⟨panicked, rfl⟩
      · exact .replicates rfl hloop
      · exact .quiet panicked
  | boatcastRequestVote i job hstep =>
      obtain ⟨sent, panicked, rfl, hsent⟩ := boatcastRequestVote_snd hstep
      exact .asks sent panicked hsent
  | applyCommitted i hstep =>
      obtain ⟨applied, panicked, rfl, happlied⟩ := applyCommitted_snd hstep
      exact .applies applied panicked rfl happlied
  | applySnapshot i hstep =>
      obtain ⟨applied, rfl, happlied⟩ := applySnapshot_snd hstep
      exact .snapshots applied happlied
  | requestVote k => exact .quiet _
  | sendRequestVote k => exact .quiet false
  | appendEntries k => exact .quiet _
  | sendAppendEntries k => exact .quiet false
  | installSnapshot k => exact .snapshots _ (installSnapshot_applied _ _)
  | sendInstallSnapshot k => exact .quiet false

namespace Sends

variable {s : Cluster n C D} {a : Action n C D} {i : Fin n} {eff : Effects n C D}

theorem requestVotes_of_mem (h : Sends s a i eff) {server : Fin n}
    {args : RequestVoteArgs n} (hmem : (server, args) ∈ eff.requestVotes) :
    server ≠ i ∧ (s.rafts i).state = .candidate ∧
      ∃ next, VoteJob.sending args next ∈ (s.rafts i).voteJobs := by
  cases h with
  | quiet => simp at hmem
  | asks sent panicked hsent => exact hsent server args hmem
  | replicates => simp [(boatcastAppendEntries_snd i (s.rafts i)).1] at hmem
  | applies => simp at hmem
  | snapshots => simp at hmem

theorem appendEntries_of_mem (h : Sends s a i eff) {server : Fin n}
    {args : AppendEntriesArgs n C} (hmem : (server, args) ∈ eff.appendEntries) :
    a = .loop i .proceed ∧ (s.rafts i).loop = .leader ∧
      Replicates i ((s.rafts i).boatcastAppendEntries i).1 server args := by
  cases h with
  | quiet => simp at hmem
  | asks => simp at hmem
  | replicates hact hloop =>
      exact ⟨hact, hloop, (boatcastAppendEntries_snd i (s.rafts i)).2.2.1 server args hmem⟩
  | applies => simp at hmem
  | snapshots => simp at hmem

theorem installSnapshots_of_mem (h : Sends s a i eff) {server : Fin n}
    {args : InstallSnapshotArgs n D} (hmem : (server, args) ∈ eff.installSnapshots) :
    (s.rafts i).state = .leader ∧ ∃ base, (s.rafts i).log.head? = some base ∧
      (s.rafts i).nextIndex server ≤ base.logIndex := by
  cases h with
  | quiet => simp at hmem
  | asks => simp at hmem
  | replicates => exact (boatcastAppendEntries_snd i (s.rafts i)).2.2.2 server args hmem
  | applies => simp at hmem
  | snapshots => simp at hmem

/-- A message is a snapshot, or the entry of its index, which is committed. -/
theorem applied_of_mem (h : Sends s a i eff) {msg : ApplyMsg C D}
    (hmem : msg ∈ eff.applied) :
    msg.index = 0 ∧ msg.command = none ∨
      1 ≤ msg.index ∧ msg.index ≤ (s.rafts i).commitIndex ∧
      ∃ entry, (s.rafts i).entryAt msg.index = some entry ∧
        msg.command = entry.logComd := by
  cases h with
  | quiet => simp at hmem
  | asks => simp at hmem
  | replicates => simp [(boatcastAppendEntries_snd i (s.rafts i)).2.1] at hmem
  | applies applied panicked _ happlied =>
      obtain ⟨hpos, hle, entry, hentry, hmsg⟩ := happlied msg hmem
      exact .inr ⟨hpos, hle, entry, hentry, by rw [hmsg]⟩
  | snapshots applied happlied => exact .inl (happlied msg hmem)

end Sends

/-! How a step changes the calls. -/

theorem mem_modify {α : Type} {l : List α} {k : Nat} {f : α → α} {x : α}
    (h : x ∈ l.modify k f) : x ∈ l ∨ ∃ y, l[k]? = some y ∧ x = f y := by
  obtain ⟨j, hj⟩ := List.mem_iff_getElem?.mp h
  rw [List.getElem?_modify] at hj
  obtain ⟨y, hy, hx⟩ := Option.map_eq_some_iff.mp hj
  by_cases hk : k = j
  · subst hk
    exact .inr ⟨y, hy, by simpa using hx.symm⟩
  · simp only [hk, if_false] at hx
    exact .inl (hx ▸ List.mem_of_getElem? hy)

/-- What a step makes of one call: nothing, or it fills the reply in, or it marks
the reply as seen. -/
inductive CallStep {Args Reply : Type} (handle : Rpc n Args Reply → Option Reply)
    (delivers : Rpc n Args Reply → Prop) (call : Rpc n Args Reply) :
    Rpc n Args Reply → Prop
  | kept : CallStep handle delivers call call
  | delivered (hdelivers : delivers call) :
      CallStep handle delivers call { call with reply := handle call }
  | returned : CallStep handle delivers call { call with returned := true }

theorem CallStep.args_eq {Args Reply : Type} {handle : Rpc n Args Reply → Option Reply}
    {delivers : Rpc n Args Reply → Prop} {call call' : Rpc n Args Reply}
    (h : CallStep handle delivers call call') : call'.args = call.args := by
  cases h <;> rfl

theorem requestVotes_touched {s : Cluster n C D} {a : Action n C D}
    {call' : Rpc n (RequestVoteArgs n) RequestVoteReply}
    (h : call' ∈ (s.touched a).requestVotes) :
    ∃ call ∈ s.requestVotes, CallStep
      (fun call => ((s.rafts call.server).requestVote call.args).2)
      (fun call => ∃ k, a = .requestVote k ∧ s.requestVotes[k]? = some call) call call' := by
  cases a with
  | requestVote k =>
      rcases mem_modify h with hmem | ⟨call, hcall, rfl⟩
      · exact ⟨call', hmem, .kept⟩
      · exact ⟨call, List.mem_of_getElem? hcall, .delivered ⟨k, rfl, hcall⟩⟩
  | sendRequestVote k =>
      rcases mem_modify h with hmem | ⟨call, hcall, rfl⟩
      · exact ⟨call', hmem, .kept⟩
      · exact ⟨call, List.mem_of_getElem? hcall, .returned⟩
  | _ => exact ⟨call', h, .kept⟩

theorem appendEntries_touched {s : Cluster n C D} {a : Action n C D}
    {call' : Rpc n (AppendEntriesArgs n C) AppendEntriesReply}
    (h : call' ∈ (s.touched a).appendEntries) :
    ∃ call ∈ s.appendEntries, CallStep
      (fun call => ((s.rafts call.server).appendEntries call.args).2)
      (fun call => ∃ k, a = .appendEntries k ∧ s.appendEntries[k]? = some call) call call' := by
  cases a with
  | appendEntries k =>
      rcases mem_modify h with hmem | ⟨call, hcall, rfl⟩
      · exact ⟨call', hmem, .kept⟩
      · exact ⟨call, List.mem_of_getElem? hcall, .delivered ⟨k, rfl, hcall⟩⟩
  | sendAppendEntries k =>
      rcases mem_modify h with hmem | ⟨call, hcall, rfl⟩
      · exact ⟨call', hmem, .kept⟩
      · exact ⟨call, List.mem_of_getElem? hcall, .returned⟩
  | _ => exact ⟨call', h, .kept⟩

/-- A `RequestVote` call after a step was there before it, or a goroutine of its
caller has just made it. -/
theorem requestVotes_step {s s' : Cluster n C D} {a : Action n C D}
    (h : s.step a = some s') {call' : Rpc n (RequestVoteArgs n) RequestVoteReply}
    (hmem : call' ∈ s'.requestVotes) :
    (∃ call ∈ s.requestVotes, CallStep
      (fun call => ((s.rafts call.server).requestVote call.args).2)
      (fun call => ∃ k, a = .requestVote k ∧ s.requestVotes[k]? = some call) call call') ∨
    (call'.reply = none ∧ call'.server ≠ call'.caller ∧
      (s.rafts call'.caller).state = .candidate ∧
      ∃ next, VoteJob.sending call'.args next ∈ (s.rafts call'.caller).voteJobs) := by
  rcases Cluster.step_cases h with ⟨i, rfl, rfl⟩ | ⟨i, rf, eff, hlocal, rfl⟩
  · exact .inl ⟨call', hmem, .kept⟩
  · rw [Cluster.moved_requestVotes] at hmem
    rcases List.mem_append.mp hmem with hmem | hmem
    · exact .inl (requestVotes_touched hmem)
    · obtain ⟨hsent, rfl, _, hreply, _⟩ := Cluster.mem_calls hmem
      exact .inr ⟨hreply, hlocal.sends.requestVotes_of_mem hsent⟩

/-- An `AppendEntries` call after a step was there before it, or the state loop
of its caller has just made it. -/
theorem appendEntries_step {s s' : Cluster n C D} {a : Action n C D}
    (h : s.step a = some s') {call' : Rpc n (AppendEntriesArgs n C) AppendEntriesReply}
    (hmem : call' ∈ s'.appendEntries) :
    (∃ call ∈ s.appendEntries, CallStep
      (fun call => ((s.rafts call.server).appendEntries call.args).2)
      (fun call => ∃ k, a = .appendEntries k ∧ s.appendEntries[k]? = some call) call call') ∨
    (call'.reply = none ∧ a = .loop call'.caller .proceed ∧
      (s.rafts call'.caller).loop = .leader ∧
      Replicates call'.caller ((s.rafts call'.caller).boatcastAppendEntries call'.caller).1
        call'.server call'.args) := by
  rcases Cluster.step_cases h with ⟨i, rfl, rfl⟩ | ⟨i, rf, eff, hlocal, rfl⟩
  · exact .inl ⟨call', hmem, .kept⟩
  · rw [Cluster.moved_appendEntries] at hmem
    rcases List.mem_append.mp hmem with hmem | hmem
    · exact .inl (appendEntries_touched hmem)
    · obtain ⟨hsent, rfl, _, hreply, _⟩ := Cluster.mem_calls hmem
      exact .inr ⟨hreply, hlocal.sends.appendEntries_of_mem hsent⟩

/-! The goroutines of `boatcastRequestVote`. -/

def AsksFrom (i : Fin n) (rf : Raft n C D) (args : RequestVoteArgs n) : Prop :=
  ∃ last, rf.log.getLast? = some last ∧
    args = ⟨rf.currentTerm, i, last.logTerm, last.logIndex⟩

theorem boatcastRequestVote_voteJobs {me : Fin n} {rf rf' : Raft n C D} {job : Nat}
    {eff : Effects n C D} (h : rf.boatcastRequestVote me job = some (rf', eff))
    {args : RequestVoteArgs n} {next : Nat}
    (hmem : VoteJob.sending args next ∈ rf'.voteJobs) :
    (∃ next, VoteJob.sending args next ∈ rf.voteJobs) ∨ AsksFrom me rf args := by
  unfold boatcastRequestVote at h
  split at h
  · cases h
  · split at h
    · rw [← (Prod.mk.inj (Option.some.inj h)).1] at hmem
      exact .inl ⟨next, hmem⟩
    · next last hlast =>
        rw [← (Prod.mk.inj (Option.some.inj h)).1] at hmem
        rcases List.mem_or_eq_of_mem_set hmem with hmem | heq
        · exact .inl ⟨next, hmem⟩
        · obtain ⟨rfl, _⟩ := VoteJob.sending.inj heq
          exact .inr ⟨last, hlast, rfl⟩
  · next old oldNext hjob =>
      split at h
      · rw [← (Prod.mk.inj (Option.some.inj h)).1] at hmem
        rcases List.mem_or_eq_of_mem_set hmem with hmem | heq
        · exact .inl ⟨next, hmem⟩
        · obtain ⟨rfl, _⟩ := VoteJob.sending.inj heq
          exact .inl ⟨oldNext, List.mem_of_getElem? hjob⟩
      · cases h

theorem loopStep_voteJobs {me : Fin n} {rf rf' : Raft n C D} {choice : LoopChoice}
    {eff : Effects n C D} (h : LoopOutcome me rf choice rf' eff)
    {args : RequestVoteArgs n} {next : Nat}
    (hmem : VoteJob.sending args next ∈ rf'.voteJobs) :
    VoteJob.sending args next ∈ rf.voteJobs := by
  cases h with
  | broadcast hloop =>
      obtain ⟨commit, chan, hform⟩ := boatcastAppendEntries_fst me rf
      rw [hform] at hmem
      exact hmem
  | campaign hloop => simpa [campaign, persist] using hmem
  | lead term hloop =>
      rcases becomeLeader_cases rf with hlead | ⟨last, _, hlead⟩
      · rwa [hlead] at hmem
      · rw [hlead] at hmem
        exact hmem
  | read => exact hmem
  | followerBeat => exact hmem
  | candidateBeat => exact hmem
  | voted => exact hmem
  | suspect => exact hmem
  | retry => exact hmem
  | token => exact hmem

theorem Local.voteJobs {s : Cluster n C D} {a : Action n C D} {i : Fin n}
    {rf : Raft n C D} {eff : Effects n C D} (h : Local s a i rf eff)
    {args : RequestVoteArgs n} {next : Nat}
    (hmem : VoteJob.sending args next ∈ rf.voteJobs) :
    (∃ next, VoteJob.sending args next ∈ (s.rafts i).voteJobs) ∨
      AsksFrom i (s.rafts i) args := by
  cases h with
  | start i command =>
      rcases start_cases (s.rafts i) command with hout | ⟨last, _, _, hout⟩
      · rw [hout] at hmem
        exact .inl ⟨next, hmem⟩
      · rw [hout] at hmem
        exact .inl ⟨next, hmem⟩
  | startSnapshot i snapshot index =>
      rcases startSnapshot_fst (s.rafts i) snapshot index with hout | ⟨log, saved, hout⟩
      · rw [hout] at hmem
        exact .inl ⟨next, hmem⟩
      · rw [hout] at hmem
        exact .inl ⟨next, hmem⟩
  | loop i choice hstep =>
      exact .inl ⟨next, loopStep_voteJobs (loopStep_outcome hstep) hmem⟩
  | boatcastRequestVote i job hstep => exact boatcastRequestVote_voteJobs hstep hmem
  | applyCommitted i hstep =>
      obtain ⟨applied, chan, rfl⟩ := applyCommitted_fst hstep
      exact .inl ⟨next, hmem⟩
  | applySnapshot i hstep =>
      obtain ⟨snapshots, rfl⟩ := applySnapshot_fst hstep
      exact .inl ⟨next, hmem⟩
  | requestVote k =>
      rename_i call _ _
      refine .inl ⟨next, ?_⟩
      rcases requestVote_cases (s.rafts call.server) call.args with
        ⟨_, hout⟩ | ⟨_, reply, _, hout⟩ | ⟨_, last, _, _, _, hout⟩
      · rwa [hout] at hmem
      · rw [hout] at hmem
        simpa [persist] using hmem
      · rw [hout] at hmem
        simpa [persist] using hmem
  | sendRequestVote k =>
      rename_i call reply _ _ _ _
      refine .inl ⟨next, ?_⟩
      have houtcome := sendRequestVote_outcome (s.rafts call.caller) call.args reply
      generalize (s.rafts call.caller).sendRequestVote call.args reply = rf at houtcome hmem
      cases houtcome with
      | ignored => exact hmem
      | raised => simpa [persist] using hmem
      | counted => exact hmem
      | won => exact hmem
  | appendEntries k =>
      rename_i call _ _
      refine .inl ⟨next, ?_⟩
      have houtcome := appendEntries_outcome (s.rafts call.server) call.args
      generalize ((s.rafts call.server).appendEntries call.args).1 = rf at houtcome hmem
      cases houtcome with
      | rejected => simpa [persist] using hmem
      | below => simpa [persist] using hmem
      | accepted => simpa [persist] using hmem
  | sendAppendEntries k =>
      rename_i call reply _ _ _ _
      refine .inl ⟨next, ?_⟩
      have houtcome :=
        sendAppendEntries_outcome (s.rafts call.caller) call.server call.args reply
      generalize (s.rafts call.caller).sendAppendEntries call.server call.args reply = rf
        at houtcome hmem
      cases houtcome with
      | ignored => exact hmem
      | raised => simpa [persist] using hmem
      | matched => exact hmem
      | rejected => exact hmem
  | installSnapshot k =>
      rename_i call _ _
      rcases installSnapshot_fst (s.rafts call.server) call.args with
        hout | ⟨_, _, _, _, hout⟩
      · rw [hout] at hmem
        exact .inl ⟨next, hmem⟩
      · rw [hout] at hmem
        exact .inl ⟨next, hmem⟩
  | sendInstallSnapshot k =>
      rename_i call reply _ _ _ _
      rcases sendInstallSnapshot_cases (s.rafts call.caller) call.server call.args reply with
        ⟨_, hout⟩ | ⟨_, _, hout⟩
      · rw [hout, observeTerm_voteJobs] at hmem
        exact .inl ⟨next, hmem⟩
      · rw [hout] at hmem
        exact .inl ⟨next, hmem⟩

/-- A goroutine after a step was already sending the same request, or has just
read the fields of its server. -/
theorem voteJobs_step {s s' : Cluster n C D} {a : Action n C D}
    (h : s.step a = some s') {i : Fin n} {args : RequestVoteArgs n} {next : Nat}
    (hmem : VoteJob.sending args next ∈ (s'.rafts i).voteJobs) :
    (∃ next, VoteJob.sending args next ∈ (s.rafts i).voteJobs) ∨
      AsksFrom i (s.rafts i) args := by
  rcases Cluster.step_server h i with heq | heq | ⟨rf, eff, hlocal, heq | heq⟩
  · rw [heq] at hmem
    exact .inl ⟨next, hmem⟩
  · simp [heq] at hmem
  · rw [heq] at hmem
    exact hlocal.voteJobs hmem
  · simp [heq] at hmem

/-- Every request on the network was read from its caller in some earlier state,
and is for another server. -/
theorem requestVotes_run (run : ClusterRun n C D) : ∀ k, k ≤ run.length →
    (∀ i args next, VoteJob.sending args next ∈ ((run.state k).rafts i).voteJobs →
      ∃ j < k, AsksFrom i ((run.state j).rafts i) args) ∧
    ∀ call ∈ (run.state k).requestVotes, call.server ≠ call.caller ∧
      ∃ j < k, AsksFrom call.caller ((run.state j).rafts call.caller) call.args := by
  refine run.induct ?_ ?_
  · rw [run.starts]
    refine ⟨fun i args next hmem => ?_, fun call hmem => ?_⟩
    · simp [Cluster.init] at hmem
    · cases hmem
  · intro k hk ih
    obtain ⟨hjobs, hcalls⟩ := ih
    have hstep := run.steps k hk
    refine ⟨fun i args next hmem => ?_, fun call' hmem => ?_⟩
    · rcases voteJobs_step hstep hmem with ⟨next', hold⟩ | hnew
      · obtain ⟨j, hj, hasks⟩ := hjobs i args next' hold
        exact ⟨j, by omega, hasks⟩
      · exact ⟨k, by omega, hnew⟩
    · rcases requestVotes_step hstep hmem with ⟨call, hcall, hchange⟩ |
        ⟨_, hne, _, next, hjob⟩
      · obtain ⟨hne, j, hj, hasks⟩ := hcalls call hcall
        cases hchange with
        | kept => exact ⟨hne, j, by omega, hasks⟩
        | delivered => exact ⟨hne, j, by omega, hasks⟩
        | returned => exact ⟨hne, j, by omega, hasks⟩
      · obtain ⟨j, hj, hasks⟩ := hjobs _ _ _ hjob
        exact ⟨hne, j, by omega, hasks⟩

end BlockchainTutorial.Raft
