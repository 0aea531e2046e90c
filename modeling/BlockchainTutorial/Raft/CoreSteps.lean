import BlockchainTutorial.Raft.Compaction

namespace BlockchainTutorial.Raft

/-! What a step does to the log, to the two indexes, and to what is stored. -/

variable {n : Nat} {C D : Type}

/-! The loops of the leader and of the goroutine that applies. -/

theorem boatcastAppendEntries_raises (me : Fin n) (rf : Raft n C D) :
    ∃ commit chan, (rf.boatcastAppendEntries me).1 =
        { rf with commitIndex := commit, chanCommit := chan } ∧
      rf.commitIndex ≤ commit ∧
      (commit = rf.commitIndex ∨
        ∃ last, rf.log.getLast? = some last ∧ commit ≤ last.logIndex) := by
  unfold boatcastAppendEntries
  split
  · rename_i base last hbase hlast
    split
    · exact ⟨rf.commitIndex, rf.chanCommit, rfl, Nat.le_refl _, .inl rfl⟩
    · rename_i commit hloop
      dsimp only
      split
      · rename_i hne
        obtain heq | ⟨hlow, hhigh, _⟩ := commitLoop_spec _ _ _ hloop
        · exact absurd heq hne
        · exact ⟨commit, rf.chanCommit + 1, rfl, by omega, .inr ⟨last, hlast, by omega⟩⟩
      · exact ⟨rf.commitIndex, rf.chanCommit, rfl, Nat.le_refl _, .inl rfl⟩
  · exact ⟨rf.commitIndex, rf.chanCommit, rfl, Nat.le_refl _, .inl rfl⟩

/-- The loop delivers index after index, and stops at the first one it cannot read. -/
theorem applyFrom_spec (rf : Raft n C D) (i count : Nat) (hi : i = rf.lastApplied + 1) :
    ∃ done, done ≤ count ∧
      (rf.applyFrom i count).1 = { rf with lastApplied := rf.lastApplied + done } ∧
      (rf.applyFrom i count).2.applied.map (·.index) = List.range' i done ∧
      (∀ msg ∈ (rf.applyFrom i count).2.applied, msg.useSnapshot = false) ∧
      ((rf.applyFrom i count).2.panicked = true →
        ∃ j, i ≤ j ∧ j < i + count ∧ rf.entryAt j = none) := by
  induction count generalizing rf i with
  | zero =>
      exact ⟨0, Nat.le_refl 0, rfl, rfl, fun _ hmsg => absurd hmsg List.not_mem_nil,
        fun hpanic => absurd hpanic Bool.false_ne_true⟩
  | succ count ih =>
      unfold applyFrom
      cases hentry : rf.entryAt i with
      | none =>
          exact ⟨0, Nat.zero_le _, rfl, rfl, fun _ hmsg => absurd hmsg List.not_mem_nil,
            fun _ => ⟨i, Nat.le_refl i, by omega, hentry⟩⟩
      | some entry =>
          obtain ⟨done, hdone, hfst, hindexes, hplain, hpanicked⟩ :=
            ih { rf with lastApplied := i } (i + 1) rfl
          refine ⟨done + 1, Nat.succ_le_succ hdone, ?_, ?_, ?_, ?_⟩
          · dsimp only
            rw [hfst, hi]
            congr 1
            exact Nat.add_right_comm _ _ _
          · dsimp only
            rw [List.map_cons, hindexes, List.range'_succ]
          · intro msg hmsg
            rcases List.mem_cons.mp hmsg with rfl | hmsg
            · rfl
            · exact hplain msg hmsg
          · intro hpanic
            obtain ⟨j, hlow, hhigh, hnone⟩ := hpanicked hpanic
            exact ⟨j, by omega, by omega, hnone⟩

/-! What a step makes of the log, of the two indexes, and of what is stored. -/

/-- The server has stored what it holds, or nothing. -/
def Stores (old rf : Raft n C D) : Prop :=
  rf.persister = old.persister ∨ rf.persister =
    { old.persister with raftstate := some ⟨rf.currentTerm, rf.votedFor, rf.log⟩ }

inductive CoreStep (s : Cluster n C D) (a : Action n C D) (i : Fin n)
    (rf : Raft n C D) : Prop
  | kept (hlog : rf.log = (s.rafts i).log)
      (happlied : rf.lastApplied = (s.rafts i).lastApplied)
      (hcommit : rf.commitIndex = (s.rafts i).commitIndex)
      (hterm : (s.rafts i).currentTerm ≤ rf.currentTerm)
      (hstores : Stores (s.rafts i) rf)
  | committed (commit chan : Nat) (loop : LoopPoint)
      (hform : rf = { s.rafts i with commitIndex := commit, chanCommit := chan, loop })
      (hle : (s.rafts i).commitIndex ≤ commit)
      (hlast : commit = (s.rafts i).commitIndex ∨
        ∃ last, (s.rafts i).log.getLast? = some last ∧ commit ≤ last.logIndex)
  | applied (done chan : Nat)
      (hform : rf = { s.rafts i with
        lastApplied := (s.rafts i).lastApplied + done, chanCommit := chan })
      (hdone : done ≤ (s.rafts i).commitIndex - (s.rafts i).lastApplied)
  | started (command : C) (last : LogEntry C) (hact : a = .start i command)
      (hlast : (s.rafts i).log.getLast? = some last)
      (hform : rf = { s.rafts i with log := (s.rafts i).log ++
        [LogEntry.mk (last.logIndex + 1) (s.rafts i).currentTerm (some command)] }.persist)
  | snapshotted (snapshot : D) (index : Nat) (base last entry : LogEntry C)
      (log : List (LogEntry C)) (hact : a = .startSnapshot i snapshot index)
      (hbase : (s.rafts i).log.head? = some base)
      (hlast : (s.rafts i).log.getLast? = some last)
      (hlow : base.logIndex < index) (hhigh : index ≤ last.logIndex)
      (hentry : (s.rafts i).log[index - base.logIndex]? = some entry)
      (hlog : log = ⟨index, entry.logTerm, none⟩ ::
        (s.rafts i).log.drop (index + 1 - base.logIndex))
      (hform : rf = { s.rafts i with
        log := log
        persister := ⟨some ⟨(s.rafts i).currentTerm, (s.rafts i).votedFor, log⟩,
          some ⟨index, entry.logTerm, snapshot⟩⟩ })
  | appended (k : Nat) (call : Rpc n (AppendEntriesArgs n C) AppendEntriesReply)
      (hact : a = .appendEntries k) (hcall : s.appendEntries[k]? = some call)
      (hserver : call.server = i)
      (hcore : AppendCore (s.rafts i) call.args rf ((s.rafts i).appendEntries call.args).2)
  | installed (k : Nat) (call : Rpc n (InstallSnapshotArgs n D) InstallSnapshotReply)
      (hact : a = .installSnapshot k) (hcall : s.installSnapshots[k]? = some call)
      (hserver : call.server = i) (hterm : (s.rafts i).currentTerm ≤ call.args.term)
      (hform : rf = { s.rafts i with
        chanHeartbeat := (s.rafts i).chanHeartbeat + 1
        state := .follower
        persister := { (s.rafts i).persister with snapshot := call.args.data }
        log := truncateLog call.args.lastIncludedIndex call.args.lastIncludedTerm
          (s.rafts i).log
        lastApplied := call.args.lastIncludedIndex
        commitIndex := call.args.lastIncludedIndex }.persist)

theorem CoreStep.of_loop {s : Cluster n C D} {a : Action n C D} {i : Fin n}
    {choice : LoopChoice} {rf : Raft n C D} {eff : Effects n C D}
    (h : LoopOutcome i (s.rafts i) choice rf eff) : CoreStep s a i rf := by
  cases h with
  | broadcast hloop =>
      obtain ⟨commit, chan, hform, hle, hlast⟩ :=
        boatcastAppendEntries_raises i (s.rafts i)
      exact .committed commit chan .top (by rw [hform]) hle hlast
  | campaign => exact .kept rfl rfl rfl (Nat.le_succ _) (.inr rfl)
  | lead term hloop =>
      rcases becomeLeader_cases (s.rafts i) with hlead | ⟨last, _, hlead⟩
      · rw [hlead]
        exact .kept rfl rfl rfl (Nat.le_refl _) (.inl rfl)
      · rw [hlead]
        exact .kept rfl rfl rfl (Nat.le_refl _) (.inl rfl)
  | _ => exact .kept rfl rfl rfl (Nat.le_refl _) (.inl rfl)

theorem observeTerm_le (rf : Raft n C D) (term : Nat) :
    rf.currentTerm ≤ (rf.observeTerm term).currentTerm := by
  unfold observeTerm
  split
  · rename_i hlt
    exact Nat.le_of_lt hlt
  · exact Nat.le_refl _

theorem stores_observeTerm (rf : Raft n C D) (term : Nat) :
    Stores rf (rf.observeTerm term).persist :=
  .inr (by rw [persist, observeTerm_persister])

theorem startSnapshot_core (rf : Raft n C D) (snapshot : D) (index : Nat) :
    (rf.startSnapshot snapshot index).1 = rf ∨
      ∃ base last entry, rf.log.head? = some base ∧ rf.log.getLast? = some last ∧
        base.logIndex < index ∧ index ≤ last.logIndex ∧
        rf.log[index - base.logIndex]? = some entry ∧
        (rf.startSnapshot snapshot index).1 = { rf with
          log := ⟨index, entry.logTerm, none⟩ :: rf.log.drop (index + 1 - base.logIndex)
          persister := ⟨some ⟨rf.currentTerm, rf.votedFor,
            ⟨index, entry.logTerm, none⟩ :: rf.log.drop (index + 1 - base.logIndex)⟩,
            some ⟨index, entry.logTerm, snapshot⟩⟩ } := by
  unfold startSnapshot
  split
  · rename_i base last hbase hlast
    split
    · exact .inl rfl
    · rename_i hrange
      split
      · exact .inl rfl
      · rename_i entry hentry
        exact .inr ⟨base, last, entry, hbase, hlast, by omega, by omega, hentry, rfl⟩
  · exact .inl rfl

theorem CoreStep.of_local {s : Cluster n C D} {a : Action n C D} {i : Fin n}
    {rf : Raft n C D} {eff : Effects n C D} (hlocal : Local s a i rf eff) :
    CoreStep s a i rf := by
  cases hlocal with
  | start i command =>
      rcases start_cases (s.rafts i) command with hout | ⟨last, _, hlast, hout⟩
      · rw [hout]
        exact .kept rfl rfl rfl (Nat.le_refl _) (.inl rfl)
      · rw [hout]
        exact .started command last rfl hlast rfl
  | startSnapshot i snapshot index =>
      rcases startSnapshot_core (s.rafts i) snapshot index with
        hout | ⟨base, last, entry, hbase, hlast, hlow, hhigh, hentry, hout⟩
      · rw [hout]
        exact .kept rfl rfl rfl (Nat.le_refl _) (.inl rfl)
      · exact .snapshotted snapshot index base last entry _ rfl hbase hlast hlow hhigh
          hentry rfl hout
  | loop i choice hstep => exact .of_loop (loopStep_outcome hstep)
  | boatcastRequestVote i job hstep =>
      obtain ⟨jobs, rfl⟩ := boatcastRequestVote_fst hstep
      exact .kept rfl rfl rfl (Nat.le_refl _) (.inl rfl)
  | applyCommitted i hstep =>
      unfold applyCommitted at hstep
      split at hstep
      · cases hstep
      · obtain ⟨done, hdone, hfst, _⟩ := applyFrom_spec
          { s.rafts i with chanCommit := (s.rafts i).chanCommit - 1 }
          ((s.rafts i).lastApplied + 1)
          ((s.rafts i).commitIndex - (s.rafts i).lastApplied) rfl
        have hout := congrArg Prod.fst (Option.some.inj hstep)
        exact .applied done _ (hout.symm.trans hfst) hdone
  | applySnapshot i hstep =>
      obtain ⟨snapshots, rfl⟩ := applySnapshot_fst hstep
      exact .kept rfl rfl rfl (Nat.le_refl _) (.inl rfl)
  | requestVote k =>
      rename_i call _ _
      rcases requestVote_cases (s.rafts call.server) call.args with
        ⟨_, hout⟩ | ⟨_, reply, _, hout⟩ | ⟨_, last, _, _, _, hout⟩
      · rw [hout]
        exact .kept rfl rfl rfl (Nat.le_refl _) (.inr rfl)
      · rw [hout]
        exact .kept (by simp) (by simp) (by simp) (observeTerm_le _ _)
          (stores_observeTerm _ _)
      · rw [hout]
        exact .kept (by simp) (by simp) (by simp) (observeTerm_le _ _)
          (.inr (by rw [persist]; dsimp only; rw [observeTerm_persister]))
  | sendRequestVote k =>
      rename_i call reply _ _ _ _
      have houtcome := sendRequestVote_outcome (s.rafts call.caller) call.args reply
      generalize (s.rafts call.caller).sendRequestVote call.args reply = rf at houtcome ⊢
      cases houtcome with
      | raised =>
          exact .kept (by simp) (by simp) (by simp) (observeTerm_le _ _)
            (.inr (by rw [persist]; dsimp only; rw [observeTerm_persister]))
      | _ => exact .kept rfl rfl rfl (Nat.le_refl _) (.inl rfl)
  | appendEntries k hcall => exact .appended k _ rfl hcall rfl (appendEntries_core _ _)
  | sendAppendEntries k =>
      rename_i call reply _ _ _ _
      have houtcome :=
        sendAppendEntries_outcome (s.rafts call.caller) call.server call.args reply
      generalize (s.rafts call.caller).sendAppendEntries call.server call.args reply = rf
        at houtcome ⊢
      cases houtcome with
      | raised =>
          exact .kept (by simp) (by simp) (by simp) (observeTerm_le _ _)
            (stores_observeTerm _ _)
      | _ => exact .kept rfl rfl rfl (Nat.le_refl _) (.inl rfl)
  | installSnapshot k hcall =>
      rename_i call _
      by_cases hterm : call.args.term < (s.rafts call.server).currentTerm
      · have hout : ((s.rafts call.server).installSnapshot call.args).1 =
            s.rafts call.server := by
          rw [installSnapshot, if_pos hterm]
        rw [hout]
        exact .kept rfl rfl rfl (Nat.le_refl _) (.inl rfl)
      · exact .installed k call rfl hcall rfl (Nat.le_of_not_lt hterm)
          (by rw [installSnapshot, if_neg hterm])
  | sendInstallSnapshot k =>
      rename_i call reply _ _ _ _
      rcases sendInstallSnapshot_cases (s.rafts call.caller) call.server call.args reply with
        ⟨_, hout⟩ | ⟨next, matched, hout⟩
      · rw [hout]
        exact .kept (by simp) (by simp) (by simp) (observeTerm_le _ _)
          (.inl (observeTerm_persister _ _))
      · rw [hout]
        exact .kept rfl rfl rfl (Nat.le_refl _) (.inl rfl)

end BlockchainTutorial.Raft
