import BlockchainTutorial.Raft.Server

namespace BlockchainTutorial.Raft

/-! One lemma for each function of a server: what it can return. -/

variable {n : Nat} {C D : Type}

@[simp] theorem persist_currentTerm (rf : Raft n C D) :
    rf.persist.currentTerm = rf.currentTerm := rfl

@[simp] theorem persist_votedFor (rf : Raft n C D) :
    rf.persist.votedFor = rf.votedFor := rfl

@[simp] theorem persist_log (rf : Raft n C D) : rf.persist.log = rf.log := rfl

@[simp] theorem persist_state (rf : Raft n C D) : rf.persist.state = rf.state := rfl

@[simp] theorem persist_loop (rf : Raft n C D) : rf.persist.loop = rf.loop := rfl

@[simp] theorem persist_commitIndex (rf : Raft n C D) :
    rf.persist.commitIndex = rf.commitIndex := rfl

@[simp] theorem persist_raftstate (rf : Raft n C D) :
    rf.persist.persister.raftstate = some ⟨rf.currentTerm, rf.votedFor, rf.log⟩ := rfl

@[simp] theorem persist_snapshot (rf : Raft n C D) :
    rf.persist.persister.snapshot = rf.persister.snapshot := rfl

theorem observeTerm_eq_self {rf : Raft n C D} {term : Nat} (h : term ≤ rf.currentTerm) :
    rf.observeTerm term = rf := by
  simp [observeTerm, Nat.not_lt.mpr h]

theorem observeTerm_of_lt {rf : Raft n C D} {term : Nat} (h : rf.currentTerm < term) :
    rf.observeTerm term =
      { rf with currentTerm := term, state := .follower, votedFor := none } := by
  simp [observeTerm, h]

theorem observeTerm_currentTerm {rf : Raft n C D} {term : Nat}
    (h : rf.currentTerm ≤ term) : (rf.observeTerm term).currentTerm = term := by
  rcases Nat.eq_or_lt_of_le h with heq | hlt
  · rw [observeTerm_eq_self heq.ge, heq]
  · rw [observeTerm_of_lt hlt]

@[simp] theorem observeTerm_log (rf : Raft n C D) (term : Nat) :
    (rf.observeTerm term).log = rf.log := by
  unfold observeTerm; split <;> rfl

@[simp] theorem observeTerm_loop (rf : Raft n C D) (term : Nat) :
    (rf.observeTerm term).loop = rf.loop := by
  unfold observeTerm; split <;> rfl

@[simp] theorem observeTerm_persister (rf : Raft n C D) (term : Nat) :
    (rf.observeTerm term).persister = rf.persister := by
  unfold observeTerm; split <;> rfl

@[simp] theorem observeTerm_commitIndex (rf : Raft n C D) (term : Nat) :
    (rf.observeTerm term).commitIndex = rf.commitIndex := by
  unfold observeTerm; split <;> rfl

@[simp] theorem observeTerm_matchIndex (rf : Raft n C D) (term : Nat) :
    (rf.observeTerm term).matchIndex = rf.matchIndex := by
  unfold observeTerm; split <;> rfl

@[simp] theorem observeTerm_voteJobs (rf : Raft n C D) (term : Nat) :
    (rf.observeTerm term).voteJobs = rf.voteJobs := by
  unfold observeTerm; split <;> rfl

@[simp] theorem observeTerm_chanLeader (rf : Raft n C D) (term : Nat) :
    (rf.observeTerm term).chanLeader = rf.chanLeader := by
  unfold observeTerm; split <;> rfl

@[simp] theorem observeTerm_voteCount (rf : Raft n C D) (term : Nat) :
    (rf.observeTerm term).voteCount = rf.voteCount := by
  unfold observeTerm; split <;> rfl

theorem observeTerm_state (rf : Raft n C D) (term : Nat)
    (h : (rf.observeTerm term).state = .leader) : rf.state = .leader := by
  unfold observeTerm at h
  split at h
  · cases h
  · exact h

@[simp] theorem observeTerm_nextIndex (rf : Raft n C D) (term : Nat) :
    (rf.observeTerm term).nextIndex = rf.nextIndex := by
  unfold observeTerm; split <;> rfl

theorem requestVote_cases (rf : Raft n C D) (args : RequestVoteArgs n) :
    (args.term < rf.currentTerm ∧
      rf.requestVote args = (rf.persist, some ⟨rf.currentTerm, false⟩)) ∨
    (rf.currentTerm ≤ args.term ∧
      ∃ reply : Option RequestVoteReply, (∀ r, reply = some r → r.voteGranted = false) ∧
        rf.requestVote args = ((rf.observeTerm args.term).persist, reply)) ∨
    (rf.currentTerm ≤ args.term ∧
      ∃ last, rf.log.getLast? = some last ∧ upToDate args last = true ∧
        ((rf.observeTerm args.term).votedFor = none ∨
          (rf.observeTerm args.term).votedFor = some args.candidateId) ∧
        rf.requestVote args =
          ({ rf.observeTerm args.term with
              chanGrantVote := (rf.observeTerm args.term).chanGrantVote + 1
              state := .follower
              votedFor := some args.candidateId }.persist,
            some ⟨args.term, true⟩)) := by
  by_cases hterm : args.term < rf.currentTerm
  · exact .inl ⟨hterm, by simp [requestVote, hterm]⟩
  · have hle : rf.currentTerm ≤ args.term := by omega
    simp only [requestVote, hterm, if_false, observeTerm_log,
      observeTerm_currentTerm hle]
    cases hlast : rf.log.getLast? with
    | none => exact .inr (.inl ⟨hle, none, by simp, rfl⟩)
    | some last =>
        dsimp only
        split
        · next hgrant => exact .inr (.inr ⟨hle, last, rfl, hgrant.2, hgrant.1, rfl⟩)
        · exact .inr (.inl ⟨hle, some ⟨args.term, false⟩, by simp, rfl⟩)

/-- What a rejecting reply says about the log that rejected. -/
def Rejection (rf : Raft n C D) (args : AppendEntriesArgs n C)
    (reply : AppendEntriesReply) : Prop :=
  reply.success = false ∧ ∃ base last,
    rf.log.head? = some base ∧ rf.log.getLast? = some last ∧
    (reply.nextIndex = last.logIndex + 1 ∨
      base.logIndex < args.prevLogIndex ∧
      ∃ prev, rf.log[args.prevLogIndex - base.logIndex]? = some prev ∧
        reply.nextIndex = conflictIndex rf.log base.logIndex prev.logTerm
          (args.prevLogIndex - base.logIndex))

/-- `AppendEntries` rejects, or it finds the previous index below the base, or it
replaces the log behind the previous entry. -/
inductive AppendOutcome (rf : Raft n C D) (args : AppendEntriesArgs n C) :
    Raft n C D → Option AppendEntriesReply → Prop
  | rejected (beats : Nat) (reply : Option AppendEntriesReply)
      (hreply : ∀ r, reply = some r → Rejection rf args r) :
      AppendOutcome rf args
        { rf.observeTerm args.term with chanHeartbeat := beats }.persist reply
  | below (beats commit chan : Nat) (base : LogEntry C)
      (reply : Option AppendEntriesReply)
      (hbase : rf.log.head? = some base) (hbelow : args.prevLogIndex < base.logIndex)
      (hreply : ∀ r, reply = some r → r.success = false) :
      AppendOutcome rf args
        { rf.observeTerm args.term with
          chanHeartbeat := beats
          log := rf.log
          commitIndex := commit
          chanCommit := chan }.persist reply
  | accepted (beats commit chan : Nat) (base last : LogEntry C)
      (reply : Option AppendEntriesReply)
      (hterm : rf.currentTerm ≤ args.term)
      (hbase : rf.log.head? = some base) (hlast : rf.log.getLast? = some last)
      (hbelow : base.logIndex ≤ args.prevLogIndex)
      (habove : args.prevLogIndex ≤ last.logIndex)
      (hprev : base.logIndex < args.prevLogIndex →
        ∃ prev, rf.log[args.prevLogIndex - base.logIndex]? = some prev ∧
          prev.logTerm = args.prevLogTerm)
      (hcommit : commit = rf.commitIndex ∨
        ∃ newLast, (rf.log.take (args.prevLogIndex + 1 - base.logIndex) ++
            args.entries).getLast? = some newLast ∧
          commit = min args.leaderCommit newLast.logIndex)
      (hreply : ∀ r, reply = some r → 1 ≤ r.nextIndex) :
      AppendOutcome rf args
        { rf.observeTerm args.term with
          chanHeartbeat := beats
          log := rf.log.take (args.prevLogIndex + 1 - base.logIndex) ++ args.entries
          commitIndex := commit
          chanCommit := chan }.persist reply

theorem observeTerm_chanHeartbeat (rf : Raft n C D) (beats term : Nat) :
    { rf with chanHeartbeat := beats }.observeTerm term =
      { rf.observeTerm term with chanHeartbeat := beats } := by
  unfold observeTerm; dsimp only; split <;> rfl

theorem acceptEntries_outcome {rf : Raft n C D} {args : AppendEntriesArgs n C}
    {base last : LogEntry C} (beats : Nat) (hterm : rf.currentTerm ≤ args.term)
    (hbase : rf.log.head? = some base) (hlast : rf.log.getLast? = some last)
    (habove : args.prevLogIndex ≤ last.logIndex)
    (hprev : base.logIndex < args.prevLogIndex →
      ∃ prev, rf.log[args.prevLogIndex - base.logIndex]? = some prev ∧
        prev.logTerm = args.prevLogTerm) :
    let out := { rf.observeTerm args.term with
      chanHeartbeat := beats }.acceptEntries args base.logIndex
    AppendOutcome rf args out.1 out.2 := by
  dsimp only
  by_cases hbelow : args.prevLogIndex < base.logIndex
  · simp only [acceptEntries, hbelow, if_true, observeTerm_log, hlast,
      observeTerm_commitIndex]
    split
    · refine .below beats _ _ base _ hbase hbelow ?_
      rintro r ⟨⟩
      rfl
    · refine .below beats rf.commitIndex _ base _ hbase hbelow ?_
      rintro r ⟨⟩
      rfl
  · simp only [acceptEntries, hbelow, if_false, observeTerm_log, observeTerm_commitIndex]
    cases hnew : (rf.log.take (args.prevLogIndex + 1 - base.logIndex) ++
        args.entries).getLast? with
    | none =>
        exact .accepted beats rf.commitIndex _ base last _ hterm hbase hlast (by omega)
          habove hprev (.inl rfl) (by simp)
    | some newLast =>
        dsimp only
        split
        · exact .accepted beats _ _ base last _ hterm hbase hlast (by omega) habove hprev
            (.inr ⟨newLast, hnew, rfl⟩) (by simp)
        · exact .accepted beats rf.commitIndex _ base last _ hterm hbase hlast (by omega)
            habove hprev (.inl rfl) (by simp)

theorem appendEntries_outcome (rf : Raft n C D) (args : AppendEntriesArgs n C) :
    AppendOutcome rf args (rf.appendEntries args).1 (rf.appendEntries args).2 := by
  unfold appendEntries
  split
  · next base last hbase hlast =>
      by_cases hterm : args.term < rf.currentTerm
      · have hself : rf.observeTerm args.term = rf :=
          observeTerm_eq_self (Nat.le_of_lt hterm)
        rw [if_pos hterm]
        have hrejected : AppendOutcome rf args _ _ :=
          .rejected rf.chanHeartbeat (some ⟨rf.currentTerm, false, last.logIndex + 1⟩) (by
            rintro r ⟨⟩
            exact ⟨rfl, base, last, hbase, hlast, .inl rfl⟩)
        rwa [hself] at hrejected
      · have hle : rf.currentTerm ≤ args.term := Nat.le_of_not_lt hterm
        rw [if_neg hterm, observeTerm_chanHeartbeat]
        dsimp only
        split
        · refine .rejected _ _ ?_
          rintro r ⟨⟩
          exact ⟨rfl, base, last, hbase, hlast, .inl rfl⟩
        · next habove =>
            have habove : args.prevLogIndex ≤ last.logIndex := Nat.le_of_not_lt habove
            split
            · next hgt =>
                split
                · refine .rejected _ _ ?_
                  rintro r ⟨⟩
                · next prev hprev =>
                    rw [observeTerm_log] at hprev
                    split
                    · refine .rejected _ _ ?_
                      rintro r ⟨⟩
                      refine ⟨rfl, base, last, hbase, hlast, .inr ⟨hgt, prev, hprev, ?_⟩⟩
                      rw [observeTerm_log]
                    · next hmatch =>
                        exact acceptEntries_outcome _ hle hbase hlast habove
                          fun _ => ⟨prev, hprev, (not_ne_iff.mp hmatch).symm⟩
            · next hgt =>
                exact acceptEntries_outcome _ hle hbase hlast habove
                  fun h => absurd h hgt
  · exact .rejected (rf.observeTerm args.term).chanHeartbeat none (by simp)

/-! Replies. -/

/-- A reply that `sendRequestVote` counts as a vote for the current term. -/
def Counts (rf : Raft n C D) (args : RequestVoteArgs n) (reply : RequestVoteReply) : Prop :=
  rf.state = .candidate ∧ args.term = rf.currentTerm ∧ reply.voteGranted = true ∧
    reply.term ≤ rf.currentTerm

instance (rf : Raft n C D) (args : RequestVoteArgs n) (reply : RequestVoteReply) :
    Decidable (Counts rf args reply) :=
  inferInstanceAs (Decidable (_ ∧ _ ∧ _ ∧ _))

inductive VoteReplyOutcome (rf : Raft n C D) (args : RequestVoteArgs n)
    (reply : RequestVoteReply) : Raft n C D → Prop
  | ignored (hcounts : ¬ Counts rf args reply) : VoteReplyOutcome rf args reply rf
  | raised (votes : Nat) (hterm : rf.currentTerm < reply.term) :
      VoteReplyOutcome rf args reply
        { rf.observeTerm reply.term with voteCount := votes }.persist
  | counted (hcounts : Counts rf args reply) (hlow : rf.voteCount + 1 ≤ n / 2) :
      VoteReplyOutcome rf args reply { rf with voteCount := rf.voteCount + 1 }
  | won (hcounts : Counts rf args reply) (hmajority : rf.voteCount + 1 > n / 2) :
      VoteReplyOutcome rf args reply
        { rf with
          voteCount := rf.voteCount + 1
          state := .follower
          chanLeader := rf.chanLeader ++ [rf.currentTerm] }

theorem sendRequestVote_outcome (rf : Raft n C D) (args : RequestVoteArgs n)
    (reply : RequestVoteReply) :
    VoteReplyOutcome rf args reply (rf.sendRequestVote args reply) := by
  unfold sendRequestVote
  split
  · next hstate => exact .ignored fun hcounts => hstate hcounts.1
  · next hstate =>
      split
      · next hargs => exact .ignored fun hcounts => hargs hcounts.2.1
      · next hargs =>
          have hstate : rf.state = .candidate := not_ne_iff.mp hstate
          have hargs : args.term = rf.currentTerm := not_ne_iff.mp hargs
          by_cases hterm : reply.term > rf.currentTerm
          · simp only [hterm, if_true, observeTerm_of_lt hterm]
            split
            · simpa [observeTerm_of_lt hterm, persist] using
                @VoteReplyOutcome.raised _ _ _ rf args reply (rf.voteCount + 1) hterm
            · simpa [observeTerm_of_lt hterm, persist] using
                @VoteReplyOutcome.raised _ _ _ rf args reply rf.voteCount hterm
          · simp only [hterm, if_false, hstate, true_and]
            split
            · next hgranted =>
                have hcounts : Counts rf args reply :=
                  ⟨hstate, hargs, hgranted, Nat.le_of_not_lt hterm⟩
                split
                · next hmajority => exact .won hcounts hmajority
                · next hlow =>
                    have := VoteReplyOutcome.counted hcounts (Nat.le_of_not_lt hlow)
                    rwa [hstate] at this
            · next hgranted => exact .ignored fun hcounts => hgranted hcounts.2.2.1

inductive AppendReplyOutcome (rf : Raft n C D) (server : Fin n)
    (args : AppendEntriesArgs n C) (reply : AppendEntriesReply) : Raft n C D → Prop
  | ignored : AppendReplyOutcome rf server args reply rf
  | raised (hterm : rf.currentTerm < reply.term) :
      AppendReplyOutcome rf server args reply (rf.observeTerm reply.term).persist
  | matched (last : LogEntry C) (hstate : rf.state = .leader)
      (hterm : args.term = rf.currentTerm) (hsuccess : reply.success = true)
      (hlast : args.entries.getLast? = some last) :
      AppendReplyOutcome rf server args reply
        { rf with
          nextIndex := Function.update rf.nextIndex server (last.logIndex + 1)
          matchIndex := Function.update rf.matchIndex server last.logIndex }
  | rejected (hstate : rf.state = .leader) (hterm : args.term = rf.currentTerm)
      (hsuccess : reply.success = false) :
      AppendReplyOutcome rf server args reply
        { rf with nextIndex := Function.update rf.nextIndex server reply.nextIndex }

theorem sendAppendEntries_outcome (rf : Raft n C D) (server : Fin n)
    (args : AppendEntriesArgs n C) (reply : AppendEntriesReply) :
    AppendReplyOutcome rf server args reply (rf.sendAppendEntries server args reply) := by
  unfold sendAppendEntries
  split
  · exact .ignored
  · next hstate =>
      split
      · exact .ignored
      · next hargs =>
          have hstate : rf.state = .leader := not_ne_iff.mp hstate
          have hargs : args.term = rf.currentTerm := not_ne_iff.mp hargs
          split
          · next hterm => exact .raised hterm
          · split
            · next hsuccess =>
                cases hlast : args.entries.getLast? with
                | none => exact .ignored
                | some last => exact .matched last hstate hargs hsuccess hlast
            · next hsuccess => exact .rejected hstate hargs (by simpa using hsuccess)

/-! Votes and replies change neither a log nor what is committed. -/

theorem requestVote_frame (rf : Raft n C D) (args : RequestVoteArgs n) :
    (rf.requestVote args).1.log = rf.log ∧
      (rf.requestVote args).1.commitIndex = rf.commitIndex := by
  rcases rf.requestVote_cases args with ⟨_, hout⟩ | ⟨_, reply, _, hout⟩ | ⟨_, _, _, _, _, hout⟩
  · rw [hout, persist_log, persist_commitIndex]
    exact ⟨rfl, rfl⟩
  · rw [hout, persist_log, persist_commitIndex, observeTerm_log, observeTerm_commitIndex]
    exact ⟨rfl, rfl⟩
  · rw [hout, persist_log, persist_commitIndex, observeTerm_log, observeTerm_commitIndex]
    exact ⟨rfl, rfl⟩

theorem sendRequestVote_frame (rf : Raft n C D) (args : RequestVoteArgs n)
    (reply : RequestVoteReply) : (rf.sendRequestVote args reply).log = rf.log ∧
      (rf.sendRequestVote args reply).commitIndex = rf.commitIndex := by
  have houtcome := sendRequestVote_outcome rf args reply
  generalize rf.sendRequestVote args reply = rf' at houtcome ⊢
  cases houtcome with
  | raised =>
      rw [persist_log, persist_commitIndex, observeTerm_log, observeTerm_commitIndex]
      exact ⟨rfl, rfl⟩
  | _ => exact ⟨rfl, rfl⟩

theorem sendAppendEntries_frame (rf : Raft n C D) (server : Fin n)
    (args : AppendEntriesArgs n C) (reply : AppendEntriesReply) :
    (rf.sendAppendEntries server args reply).log = rf.log ∧
      (rf.sendAppendEntries server args reply).commitIndex = rf.commitIndex := by
  have houtcome := sendAppendEntries_outcome rf server args reply
  generalize rf.sendAppendEntries server args reply = rf' at houtcome ⊢
  cases houtcome with
  | raised =>
      rw [persist_log, persist_commitIndex, observeTerm_log, observeTerm_commitIndex]
      exact ⟨rfl, rfl⟩
  | _ => exact ⟨rfl, rfl⟩

/-! Applying, committing and the state loop. -/

theorem applyFrom_fst (rf : Raft n C D) (i count : Nat) :
    ∃ applied, (rf.applyFrom i count).1 = { rf with lastApplied := applied } := by
  induction count generalizing rf i with
  | zero => exact ⟨rf.lastApplied, rfl⟩
  | succ count ih =>
      unfold applyFrom
      split
      · exact ⟨rf.lastApplied, rfl⟩
      · obtain ⟨applied, happlied⟩ := ih { rf with lastApplied := i } (i + 1)
        exact ⟨applied, happlied⟩

theorem applyCommitted_fst {rf rf' : Raft n C D} {eff : Effects n C D}
    (h : rf.applyCommitted = some (rf', eff)) :
    ∃ applied chan, rf' = { rf with lastApplied := applied, chanCommit := chan } := by
  unfold applyCommitted at h
  split at h
  · cases h
  · obtain ⟨applied, happlied⟩ := applyFrom_fst
      { rf with chanCommit := rf.chanCommit - 1 } (rf.lastApplied + 1)
      (rf.commitIndex - rf.lastApplied)
    have hfst := congrArg Prod.fst (Option.some.inj h)
    exact ⟨applied, rf.chanCommit - 1, hfst.symm.trans happlied⟩

theorem applySnapshot_fst {rf rf' : Raft n C D} {eff : Effects n C D}
    (h : rf.applySnapshot = some (rf', eff)) :
    ∃ snapshots, rf' = { rf with snapshotMsgs := snapshots } := by
  unfold applySnapshot at h
  split at h
  · cases h
  · next rest _ => exact ⟨rest, (congrArg Prod.fst (Option.some.inj h)).symm⟩

theorem boatcastRequestVote_fst {me : Fin n} {rf rf' : Raft n C D} {job : Nat}
    {eff : Effects n C D} (h : rf.boatcastRequestVote me job = some (rf', eff)) :
    ∃ jobs, rf' = { rf with voteJobs := jobs } := by
  unfold boatcastRequestVote at h
  split at h
  · cases h
  · split at h
    · exact ⟨rf.voteJobs, (congrArg Prod.fst (Option.some.inj h)).symm⟩
    · exact ⟨_, (congrArg Prod.fst (Option.some.inj h)).symm⟩
  · split at h
    · exact ⟨_, (congrArg Prod.fst (Option.some.inj h)).symm⟩
    · cases h

theorem commitLoop_spec {me : Fin n} {rf : Raft n C D} (i count commit : Nat) {N : Nat}
    (h : rf.commitLoop me i count commit = some N) :
    N = commit ∨ i ≤ N ∧ N < i + count ∧
      ∃ num, rf.countReplicas me N = some num ∧ n < 2 * num := by
  induction count generalizing i commit with
  | zero => exact .inl (Option.some.inj h).symm
  | succ count ih =>
      simp only [commitLoop] at h
      obtain ⟨num, hnum, hrest⟩ := Option.bind_eq_some_iff.mp h
      rcases ih _ _ hrest with heq | ⟨hlow, hhigh, hmajority⟩
      · by_cases hcount : 2 * num > n
        · rw [if_pos hcount] at heq
          subst heq
          exact .inr ⟨Nat.le_refl _, by omega, num, hnum, hcount⟩
        · rw [if_neg hcount] at heq
          exact .inl heq
      · exact .inr ⟨by omega, by omega, hmajority⟩

theorem boatcastAppendEntries_fst (me : Fin n) (rf : Raft n C D) :
    ∃ commit chan, (rf.boatcastAppendEntries me).1 =
      { rf with commitIndex := commit, chanCommit := chan } := by
  unfold boatcastAppendEntries
  split
  · split
    · exact ⟨rf.commitIndex, rf.chanCommit, rfl⟩
    · dsimp only
      split
      · exact ⟨_, _, rfl⟩
      · exact ⟨rf.commitIndex, rf.chanCommit, rfl⟩
  · exact ⟨rf.commitIndex, rf.chanCommit, rfl⟩

inductive LoopOutcome (me : Fin n) (rf : Raft n C D) :
    LoopChoice → Raft n C D → Effects n C D → Prop
  | read (point : LoopPoint) (htop : rf.loop = .top)
      (hleader : point = .leader → rf.state = .leader)
      (hother : point ≠ .leader → rf.state ≠ .leader)
      (hpoint : point = .leader ∨ point = .candidate ∨ point = .follower) :
      LoopOutcome me rf .proceed { rf with loop := point } {}
  | broadcast (hloop : rf.loop = .leader) :
      LoopOutcome me rf .proceed { (rf.boatcastAppendEntries me).1 with loop := .top }
        (rf.boatcastAppendEntries me).2
  | campaign (hloop : rf.loop = .candidate) :
      LoopOutcome me rf .proceed (rf.campaign me) {}
  | lead (term : Nat) (hloop : rf.loop = .elected term) :
      LoopOutcome me rf .proceed rf.becomeLeader.1 rf.becomeLeader.2
  | followerBeat (beats : Nat) (hloop : rf.loop = .follower) :
      LoopOutcome me rf .heartbeat { rf with chanHeartbeat := beats, loop := .top } {}
  | candidateBeat (beats : Nat) (hloop : rf.loop = .waiting) :
      LoopOutcome me rf .heartbeat
        { rf with chanHeartbeat := beats, state := .follower, loop := .top } {}
  | voted (grants : Nat) (hloop : rf.loop = .follower) :
      LoopOutcome me rf .grantVote { rf with chanGrantVote := grants, loop := .top } {}
  | suspect (hloop : rf.loop = .follower) :
      LoopOutcome me rf .timeout { rf with state := .candidate, loop := .top } {}
  | retry (hloop : rf.loop = .waiting) :
      LoopOutcome me rf .timeout { rf with loop := .top } {}
  | token (term : Nat) (rest : List Nat) (hloop : rf.loop = .waiting)
      (hchan : rf.chanLeader = term :: rest) :
      LoopOutcome me rf .chanLeader
        { rf with chanLeader := rest, loop := .elected term } {}

theorem loopStep_outcome {me : Fin n} {rf rf' : Raft n C D} {choice : LoopChoice}
    {eff : Effects n C D} (h : rf.loopStep me choice = some (rf', eff)) :
    LoopOutcome me rf choice rf' eff := by
  cases choice with
  | proceed =>
      simp only [loopStep] at h
      split at h
      · next htop =>
          split at h <;> next hstate =>
            obtain ⟨rfl, rfl⟩ := Prod.mk.inj (Option.some.inj h)
            exact .read _ htop (by simp [hstate]) (by simp [hstate]) (by simp)
      · next hloop =>
          obtain ⟨rfl, rfl⟩ := Prod.mk.inj (Option.some.inj h)
          exact .broadcast hloop
      · next hloop =>
          obtain ⟨rfl, rfl⟩ := Prod.mk.inj (Option.some.inj h)
          exact .campaign hloop
      · next term hloop =>
          obtain ⟨rfl, rfl⟩ := Prod.mk.inj (Option.some.inj h)
          exact .lead term hloop
      · cases h
  | heartbeat =>
      simp only [loopStep] at h
      split at h
      · cases h
      · split at h
        · next hloop =>
            obtain ⟨rfl, rfl⟩ := Prod.mk.inj (Option.some.inj h)
            exact .followerBeat _ hloop
        · next hloop =>
            obtain ⟨rfl, rfl⟩ := Prod.mk.inj (Option.some.inj h)
            exact .candidateBeat _ hloop
        · cases h
  | grantVote =>
      simp only [loopStep] at h
      split at h
      · next hloop =>
          split at h
          · cases h
          · obtain ⟨rfl, rfl⟩ := Prod.mk.inj (Option.some.inj h)
            exact .voted _ hloop
      · cases h
  | timeout =>
      simp only [loopStep] at h
      split at h
      · next hloop =>
          obtain ⟨rfl, rfl⟩ := Prod.mk.inj (Option.some.inj h)
          exact .suspect hloop
      · next hloop =>
          obtain ⟨rfl, rfl⟩ := Prod.mk.inj (Option.some.inj h)
          exact .retry hloop
      · cases h
  | chanLeader =>
      simp only [loopStep] at h
      split at h
      · next term rest hloop hchan =>
          obtain ⟨rfl, rfl⟩ := Prod.mk.inj (Option.some.inj h)
          exact .token term rest hloop hchan
      · cases h

/-- `becomeLeader` makes the server leader, or finds its log empty and panics. -/
theorem becomeLeader_cases (rf : Raft n C D) :
    rf.becomeLeader = (rf, { panicked := true }) ∨
      ∃ last, rf.log.getLast? = some last ∧
        rf.becomeLeader =
          ({ rf with
              state := .leader
              nextIndex := fun _ => last.logIndex + 1
              matchIndex := fun _ => 0
              loop := .top }, {}) := by
  unfold becomeLeader
  split
  · exact .inl rfl
  · next last hlast => exact .inr ⟨last, hlast, rfl⟩

theorem start_cases (rf : Raft n C D) (command : C) :
    (rf.start command).1 = rf ∨
      ∃ last, rf.state = .leader ∧ rf.log.getLast? = some last ∧
        rf.start command =
          ({ rf with log := rf.log ++
              [LogEntry.mk (last.logIndex + 1) rf.currentTerm (some command)] }.persist,
            {}) := by
  unfold start
  split
  · next hstate =>
      split
      · exact .inl rfl
      · next last hlast => exact .inr ⟨last, hstate, hlast, rfl⟩
  · exact .inl rfl

/-! A server that has just started. -/

@[simp] theorem make_persister (p : Persister n C D) : (make p).persister = p := by
  obtain ⟨raftstate, snapshot⟩ := p
  cases raftstate <;> cases snapshot <;> rfl

@[simp] theorem make_state (p : Persister n C D) : (make p).state = .follower := by
  obtain ⟨raftstate, snapshot⟩ := p
  cases raftstate <;> cases snapshot <;> rfl

@[simp] theorem make_loop (p : Persister n C D) : (make p).loop = .top := by
  obtain ⟨raftstate, snapshot⟩ := p
  cases raftstate <;> cases snapshot <;> rfl

@[simp] theorem make_chanLeader (p : Persister n C D) : (make p).chanLeader = [] := by
  obtain ⟨raftstate, snapshot⟩ := p
  cases raftstate <;> cases snapshot <;> rfl

@[simp] theorem make_voteCount (p : Persister n C D) : (make p).voteCount = 0 := by
  obtain ⟨raftstate, snapshot⟩ := p
  cases raftstate <;> cases snapshot <;> rfl

@[simp] theorem make_voteJobs (p : Persister n C D) : (make p).voteJobs = [] := by
  obtain ⟨raftstate, snapshot⟩ := p
  cases raftstate <;> cases snapshot <;> rfl

/-! Snapshots. -/

theorem startSnapshot_fst (rf : Raft n C D) (snapshot : D) (index : Nat) :
    (rf.startSnapshot snapshot index).1 = rf ∨
      ∃ log saved, (rf.startSnapshot snapshot index).1 =
        { rf with
          log := log
          persister := ⟨some ⟨rf.currentTerm, rf.votedFor, log⟩, saved⟩ } := by
  unfold startSnapshot
  split
  · split
    · exact .inl rfl
    · split
      · exact .inl rfl
      · exact .inr ⟨_, _, rfl⟩
  · exact .inl rfl

theorem installSnapshot_fst (rf : Raft n C D) (args : InstallSnapshotArgs n D) :
    (rf.installSnapshot args).1 = rf ∨
      ∃ beats log saved index, (rf.installSnapshot args).1 =
        { rf with
          chanHeartbeat := beats
          state := .follower
          log := log
          lastApplied := index
          commitIndex := index
          persister := ⟨some ⟨rf.currentTerm, rf.votedFor, log⟩, saved⟩ } := by
  unfold installSnapshot
  split
  · exact .inl rfl
  · exact .inr ⟨_, _, _, _, rfl⟩

theorem sendInstallSnapshot_cases (rf : Raft n C D) (server : Fin n)
    (args : InstallSnapshotArgs n D) (reply : InstallSnapshotReply) :
    (rf.currentTerm < reply.term ∧
      rf.sendInstallSnapshot server args reply = rf.observeTerm reply.term) ∨
    ∃ next matched, rf.sendInstallSnapshot server args reply =
      { rf with nextIndex := next, matchIndex := matched } := by
  unfold sendInstallSnapshot
  split
  · next hterm => exact .inl ⟨hterm, rfl⟩
  · exact .inr ⟨_, _, rfl⟩

end BlockchainTutorial.Raft
