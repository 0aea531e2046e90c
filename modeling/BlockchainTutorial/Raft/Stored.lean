import BlockchainTutorial.Raft.CoreSteps

namespace BlockchainTutorial.Raft

/-! What every server has stored in a run with snapshots, and what every call carries. -/

variable {n : Nat} {C D : Type}

/-! The `InstallSnapshot` calls. -/

theorem replicate_installs (me : Fin n) (rf : Raft n C D) (base : LogEntry C)
    (peers : List (Fin n)) {server : Fin n} {args : InstallSnapshotArgs n D}
    (hmem : (server, args) ∈ (rf.replicate me base peers).installSnapshots) :
    args = ⟨rf.currentTerm, me, base.logIndex, base.logTerm, rf.persister.snapshot⟩ := by
  induction peers with
  | nil => simp [replicate] at hmem
  | cons peer peers ih =>
      unfold replicate at hmem
      split at hmem
      · split at hmem
        · dsimp only at hmem
          split at hmem
          · cases hmem
          · exact ih hmem
        · rcases List.mem_cons.mp hmem with heq | hmem
          · exact (Prod.mk.inj heq).2
          · exact ih hmem
      · exact ih hmem

theorem boatcastAppendEntries_installs {me : Fin n} {rf : Raft n C D} {server : Fin n}
    {args : InstallSnapshotArgs n D}
    (hmem : (server, args) ∈ (rf.boatcastAppendEntries me).2.installSnapshots) :
    ∃ base, rf.log.head? = some base ∧
      args = ⟨rf.currentTerm, me, base.logIndex, base.logTerm, rf.persister.snapshot⟩ := by
  unfold boatcastAppendEntries at hmem
  split at hmem
  · rename_i base last hbase hlast
    split at hmem
    · cases hmem
    · dsimp only at hmem
      refine ⟨base, hbase, ?_⟩
      split at hmem
      · have hargs := replicate_installs me _ base _ hmem
        exact hargs
      · exact replicate_installs me _ base _ hmem
  · cases hmem

theorem Sends.installs {s : Cluster n C D} {a : Action n C D} {i : Fin n}
    {eff : Effects n C D} (h : Sends s a i eff) {server : Fin n}
    {args : InstallSnapshotArgs n D} (hmem : (server, args) ∈ eff.installSnapshots) :
    ∃ base, (s.rafts i).log.head? = some base ∧
      args = ⟨(s.rafts i).currentTerm, i, base.logIndex, base.logTerm,
        (s.rafts i).persister.snapshot⟩ := by
  cases h with
  | quiet => cases hmem
  | asks => cases hmem
  | replicates => exact boatcastAppendEntries_installs hmem
  | applies => cases hmem
  | snapshots => cases hmem

/-- An `InstallSnapshot` call after a step was there before it, or its caller has just
made it of its own snapshot. -/
theorem installSnapshots_step {s s' : Cluster n C D} {a : Action n C D}
    (h : s.step a = some s') {call' : Rpc n (InstallSnapshotArgs n D) InstallSnapshotReply}
    (hmem : call' ∈ s'.installSnapshots) :
    (∃ call ∈ s.installSnapshots, call.args = call'.args) ∨
    ∃ base, (s.rafts call'.caller).log.head? = some base ∧
      call'.args = ⟨(s.rafts call'.caller).currentTerm, call'.caller, base.logIndex,
        base.logTerm, (s.rafts call'.caller).persister.snapshot⟩ := by
  rcases Cluster.step_cases h with ⟨i, rfl, rfl⟩ | ⟨i, rf, eff, hlocal, rfl⟩
  · exact .inl ⟨call', hmem, rfl⟩
  · rw [Cluster.moved_installSnapshots] at hmem
    rcases List.mem_append.mp hmem with hmem | hmem
    · cases a with
      | installSnapshot k =>
          rcases mem_modify hmem with hmem | ⟨call, hcall, rfl⟩
          · exact .inl ⟨call', hmem, rfl⟩
          · exact .inl ⟨call, List.mem_of_getElem? hcall, rfl⟩
      | sendInstallSnapshot k =>
          rcases mem_modify hmem with hmem | ⟨call, hcall, rfl⟩
          · exact .inl ⟨call', hmem, rfl⟩
          · exact .inl ⟨call, List.mem_of_getElem? hcall, rfl⟩
      | _ => exact .inl ⟨call', hmem, rfl⟩
    · obtain ⟨hsent, rfl, _⟩ := Cluster.mem_calls hmem
      exact .inr (hlocal.sends.installs hsent)

/-! What a server holds is what it has stored, behind the snapshot. -/

def snapshotBase : Option (Snapshot D) → LogEntry C
  | none => ⟨0, 0, none⟩
  | some snapshot => ⟨snapshot.lastIncludedIndex, snapshot.lastIncludedTerm, none⟩

@[simp] theorem snapshotBase_logComd (snapshot : Option (Snapshot D)) :
    (snapshotBase snapshot : LogEntry C).logComd = none := by
  cases snapshot <;> rfl

structure Whole (rf : Raft n C D) : Prop where
  log : Based (snapshotBase rf.persister.snapshot) rf.log
  stored : storedLog rf.persister = rf.log

theorem make_log_some {p : Persister n C D} {snapshot : Snapshot D}
    (h : p.snapshot = some snapshot) :
    (make p).log =
      truncateLog snapshot.lastIncludedIndex snapshot.lastIncludedTerm (storedLog p) := by
  obtain ⟨raftstate, _⟩ := p
  obtain rfl := h
  cases raftstate <;> rfl

/-- A stored log that starts where the stored snapshot ends is read back as it is. -/
theorem make_log_based {p : Persister n C D}
    (h : Based (snapshotBase p.snapshot) (storedLog p)) : (make p).log = storedLog p := by
  cases hsnapshot : p.snapshot with
  | none => exact make_log hsnapshot
  | some snapshot =>
      rw [hsnapshot] at h
      rw [make_log_some hsnapshot]
      exact h.truncateLog_self rfl

theorem make_indexes (p : Persister n C D) :
    (make p).lastApplied = (snapshotBase p.snapshot : LogEntry C).logIndex ∧
      (make p).commitIndex = (snapshotBase p.snapshot : LogEntry C).logIndex := by
  obtain ⟨raftstate, snapshot⟩ := p
  cases raftstate <;> cases snapshot <;> exact ⟨rfl, rfl⟩

namespace Whole

variable {rf : Raft n C D}

/-- A server that starts again has the log that it had. -/
theorem make_log (h : Whole rf) : (make rf.persister).log = rf.log := by
  have hlog := h.log
  rw [← h.stored] at hlog
  rw [make_log_based hlog, h.stored]

theorem make (h : Whole rf) : Whole (make rf.persister) :=
  ⟨by rw [make_persister, h.make_log]; exact h.log,
    by rw [make_persister, h.make_log]; exact h.stored⟩

theorem of_stores {old : Raft n C D} (h : Whole old) (hstores : Stores old rf)
    (hlog : rf.log = old.log) : Whole rf := by
  rcases hstores with heq | heq
  · exact ⟨by rw [heq, hlog]; exact h.log, by rw [heq, hlog]; exact h.stored⟩
  · exact ⟨by rw [heq, hlog]; exact h.log, by rw [heq]; rfl⟩

end Whole

/-- The index that the log of a server starts with. -/
def baseIndex (rf : Raft n C D) : Nat :=
  (snapshotBase rf.persister.snapshot : LogEntry C).logIndex

theorem Whole.last {rf : Raft n C D} (h : Whole rf) {last : LogEntry C}
    (hlast : rf.log.getLast? = some last) :
    last.logIndex + 1 = rf.baseIndex + rf.log.length :=
  h.log.last hlast

/-- What `AppendEntries` makes of a server when it takes the entries. -/
structure Accepted (rf : Raft n C D) (args : AppendEntriesArgs n C) (rf' : Raft n C D) :
    Prop where
  base_eq : rf'.baseIndex = rf.baseIndex
  base_le : rf.baseIndex ≤ args.prevLogIndex
  prev_lt : args.prevLogIndex < rf.baseIndex + rf.log.length
  prev : rf.baseIndex < args.prevLogIndex →
    ∃ prev, rf.log[args.prevLogIndex - rf.baseIndex]? = some prev ∧
      prev.logTerm = args.prevLogTerm
  log_eq : rf'.log = rf.log.take (args.prevLogIndex + 1 - rf.baseIndex) ++ args.entries
  applied_eq : rf'.lastApplied = rf.lastApplied
  commit_eq : rf'.commitIndex = raisedCommit args.leaderCommit rf.commitIndex
    (args.prevLogIndex + args.entries.length)
  term_le : rf.currentTerm ≤ args.term
  term_eq : rf'.currentTerm = args.term

theorem Accepted.length_log {rf rf' : Raft n C D} {args : AppendEntriesArgs n C}
    (h : Accepted rf args rf') :
    rf'.baseIndex + rf'.log.length = args.prevLogIndex + 1 + args.entries.length := by
  have hlow := h.base_le
  have hhigh := h.prev_lt
  rw [h.base_eq, h.log_eq, List.length_append, List.length_take]
  omega

theorem AppendCore.snapshot_eq {rf rf' : Raft n C D} {args : AppendEntriesArgs n C}
    {reply : Option AppendEntriesReply} (hcore : AppendCore rf args rf' reply) :
    rf'.persister.snapshot = rf.persister.snapshot := by
  cases hcore <;> rw [persist_snapshot] <;> dsimp only <;> rw [observeTerm_persister]

theorem AppendCore.baseIndex_eq {rf rf' : Raft n C D} {args : AppendEntriesArgs n C}
    {reply : Option AppendEntriesReply} (hcore : AppendCore rf args rf' reply) :
    rf'.baseIndex = rf.baseIndex := by
  rw [baseIndex, hcore.snapshot_eq, baseIndex]

theorem AppendCore.accepted_of {rf rf' : Raft n C D} {args : AppendEntriesArgs n C}
    {reply : Option AppendEntriesReply} (hcore : AppendCore rf args rf' reply)
    (haccepts : rf.accepts args = true) (hwhole : Whole rf) (hwhole' : Whole rf') :
    Accepted rf args rf' ∧ reply.isSome := by
  have hbaseEq := hcore.baseIndex_eq
  cases hcore with
  | rejected hnot =>
      rw [haccepts] at hnot
      cases hnot
  | below hnot =>
      rw [haccepts] at hnot
      cases hnot
  | accepted _ base last newLast hbase hlast hnew beats chan reply =>
      obtain ⟨hterm, hlow, hhigh, hprev⟩ := (accepts_iff hbase hlast).mp haccepts
      have hlength := hwhole.last hlast
      have hnewLength := hwhole'.last hnew
      rw [hbaseEq] at hnewLength
      rw [hwhole.log.head] at hbase
      obtain rfl := Option.some.inj hbase
      change rf.baseIndex ≤ _ at hlow
      change _ = _ + (rf.log.take (args.prevLogIndex + 1 - rf.baseIndex) ++
        args.entries).length at hnewLength
      rw [List.length_append, List.length_take] at hnewLength
      refine ⟨⟨hbaseEq, hlow, by omega, hprev, rfl, observeTerm_lastApplied _ _, ?_, hterm,
        observeTerm_currentTerm hterm⟩, rfl⟩
      rw [persist_commitIndex]
      dsimp only
      congr 1
      omega

/-- A request carries the end of a log. -/
theorem Replicates.consecutive {me : Fin n} {rf : Raft n C D} {server : Fin n}
    {args : AppendEntriesArgs n C} (h : Replicates me (rf.boatcastAppendEntries me).1 server args)
    {base : LogEntry C} (hlog : Based base rf.log) :
    Consecutive (args.prevLogIndex + 1) args.entries := by
  obtain ⟨commit, chan, hform⟩ := boatcastAppendEntries_fst me rf
  rw [hform] at h
  obtain ⟨base', prev, hbase, hnext, _, _, hentries⟩ := h.slice
  have hprev := h.prevLogIndex_eq
  dsimp only at hbase hnext hentries hprev
  rw [hlog.head] at hbase
  obtain rfl := Option.some.inj hbase
  rw [hentries]
  have hdrop := hlog.consecutive.drop (args.prevLogIndex + 1 - base.logIndex)
  rwa [Nat.add_sub_cancel' (by omega)] at hdrop

structure WholeCluster (s : Cluster n C D) : Prop where
  servers : ∀ i, Whole (s.rafts i)
  appends : ∀ call ∈ s.appendEntries,
    Consecutive (call.args.prevLogIndex + 1) call.args.entries
  installs : ∀ call ∈ s.installSnapshots,
    snapshotBase call.args.data = (⟨call.args.lastIncludedIndex,
      call.args.lastIncludedTerm, none⟩ : LogEntry C)

theorem wholeCluster_init : WholeCluster (Cluster.init n C D) :=
  ⟨fun _ => ⟨.singleton _, rfl⟩, nofun, nofun⟩

/-- What a step makes of a log that starts with `base`, and of what is stored. -/
inductive Rebased (s : Cluster n C D) (i : Fin n) (base : LogEntry C) (rf : Raft n C D) : Prop
  | kept (hlog : rf.log = (s.rafts i).log) (hstores : Stores (s.rafts i) rf)
  | spliced (hbased : Based base rf.log) (hsaved : storedLog rf.persister = rf.log)
      (hsnapshot : rf.persister.snapshot = (s.rafts i).persister.snapshot)
  | compacted (snapshot : Snapshot D)
      (hbased : Based (snapshotBase (some snapshot)) rf.log)
      (hsaved : storedLog rf.persister = rf.log)
      (hsnapshot : rf.persister.snapshot = some snapshot)
      (hlow : base.logIndex < snapshot.lastIncludedIndex)
  | replaced (call : Rpc n (InstallSnapshotArgs n D) InstallSnapshotReply)
      (hcall : call ∈ s.installSnapshots)
      (hbased : Based ⟨call.args.lastIncludedIndex, call.args.lastIncludedTerm, none⟩ rf.log)
      (hsaved : storedLog rf.persister = rf.log)
      (hsnapshot : rf.persister.snapshot = call.args.data)

theorem CoreStep.rebased {s : Cluster n C D} {a : Action n C D} {i : Fin n} {rf : Raft n C D}
    (hstep : CoreStep s a i rf) {base : LogEntry C} (hold : Based base (s.rafts i).log)
    (happends : ∀ call ∈ s.appendEntries,
      Consecutive (call.args.prevLogIndex + 1) call.args.entries) :
    Rebased s i base rf := by
  cases hstep with
  | kept hlog _ _ _ hstores => exact .kept hlog hstores
  | committed commit chan loop hform =>
      rw [hform]
      exact .kept rfl (.inl rfl)
  | applied done chan hform =>
      rw [hform]
      exact .kept rfl (.inl rfl)
  | started command last _ hlast hform =>
      rw [hform]
      refine .spliced (hold.append ?_) rfl rfl
      rw [← hold.last hlast]
      exact consecutive_singleton _
  | snapshotted snapshot index first last entry log _ hfirst _ hlow _ _ hlog hform =>
      rw [hold.head] at hfirst
      obtain rfl := Option.some.inj hfirst
      rw [hform, hlog]
      exact .compacted ⟨index, entry.logTerm, snapshot⟩
        (hold.cut (Nat.le_of_lt hlow) entry.logTerm) rfl rfl hlow
  | appended k call _ hcall hserver hcore =>
      have hsnapshot := hcore.snapshot_eq
      generalize ((s.rafts i).appendEntries call.args).2 = reply at hcore
      cases hcore with
      | rejected => exact .spliced (by simpa using hold) rfl hsnapshot
      | below => exact .spliced (by simpa using hold) rfl hsnapshot
      | accepted haccepts first last newLast hfirst hlast hnew beats chan =>
          obtain ⟨_, hlow, hhigh, _⟩ := (accepts_iff hfirst hlast).mp haccepts
          have hlength := hold.last hlast
          rw [hold.head] at hfirst
          obtain rfl := Option.some.inj hfirst
          refine .spliced (hold.take_append (by omega) (by omega) ?_) rfl hsnapshot
          rw [Nat.add_sub_cancel' (by omega)]
          exact happends call (List.mem_of_getElem? hcall)
  | installed k call _ hcall _ _ hform =>
      rw [hform]
      exact .replaced call (List.mem_of_getElem? hcall) (hold.truncateLog _ _) rfl rfl

theorem Whole.step {s : Cluster n C D} {a : Action n C D} {i : Fin n} {rf : Raft n C D}
    (hwhole : WholeCluster s) (hstep : CoreStep s a i rf) : Whole rf := by
  have hold := hwhole.servers i
  cases hstep.rebased hold.log hwhole.appends with
  | kept hlog hstores => exact hold.of_stores hstores hlog
  | spliced hbased hsaved hsnapshot => exact ⟨by rwa [hsnapshot], hsaved⟩
  | compacted snapshot hbased hsaved hsnapshot => exact ⟨by rwa [hsnapshot], hsaved⟩
  | replaced call hcall hbased hsaved hsnapshot =>
      exact ⟨by rwa [hsnapshot, hwhole.installs call hcall], hsaved⟩

theorem whole_run (run : ClusterRun n C D) :
    ∀ k, k ≤ run.length → WholeCluster (run.state k) := by
  refine run.invariant wholeCluster_init ?_
  intro s a s' hwhole hstep
  refine ⟨?_, fun call' hmem => ?_, fun call' hmem => ?_⟩
  · refine Cluster.servers_step hstep hwhole.servers (fun rf h => h.make) ?_
    intro i rf eff hlocal
    exact .step hwhole (.of_local hlocal)
  · rcases appendEntries_step hstep hmem with ⟨call, hcall, hchange⟩ | ⟨_, _, _, hsent⟩
    · rw [hchange.args_eq]
      exact hwhole.appends call hcall
    · exact hsent.consecutive (hwhole.servers call'.caller).log
  · rcases installSnapshots_step hstep hmem with ⟨call, hcall, hargs⟩ | ⟨base, hbase, hargs⟩
    · rw [← hargs]
      exact hwhole.installs call hcall
    · rw [(hwhole.servers call'.caller).log.head] at hbase
      obtain rfl := Option.some.inj hbase
      rw [hargs]
      dsimp only
      rw [← snapshotBase_logComd (C := C) (s.rafts call'.caller).persister.snapshot]

end BlockchainTutorial.Raft
