import BlockchainTutorial.Raft.CrashPoints

namespace BlockchainTutorial.Raft

/-! The indexes of the logs, in runs in which servers crash at any moment, also between the
two writes of a snapshot. -/

variable {n : Nat} {C D : Type}

/-- A log may begin with `base` beside the snapshot. -/
structure Beside (base : LogEntry C) (snapshot : Option (Snapshot D)) : Prop where
  origin : base.logIndex = 0 → base = ⟨0, 0, none⟩ ∧ snapshot = none
  covered : ∀ stored, snapshot = some stored → base = snapshotBase (some stored)

theorem Beside.pos {base : LogEntry C} {snapshot : Option (Snapshot D)}
    (h : Beside base snapshot) {stored : Snapshot D} (hstored : snapshot = some stored) :
    0 < stored.lastIncludedIndex := by
  have hbase := h.covered stored hstored
  refine Nat.pos_of_ne_zero fun hzero => ?_
  have hnone := (h.origin (by rw [hbase]; exact hzero)).2
  rw [hstored] at hnone
  cases hnone

theorem beside_some {snapshot : Snapshot D} (hpos : 0 < snapshot.lastIncludedIndex) :
    Beside (snapshotBase (some snapshot) : LogEntry C) (some snapshot) := by
  refine ⟨fun hzero => ?_, fun stored hstored => ?_⟩
  · exact absurd hzero (Nat.ne_of_gt hpos)
  · rw [hstored]

/-- There is a first entry, and the indexes follow one another from its own on. -/
def Rooted (log : List (LogEntry C)) : Prop :=
  ∃ base, Based base log ∧ (base.logIndex = 0 → base = ⟨0, 0, none⟩)

/-- What a server can start again with. -/
structure Readable (p : Persister n C D) : Prop where
  log : Rooted (storedLog p)
  snapshot : ∀ stored, p.snapshot = some stored → 0 < stored.lastIncludedIndex

theorem Readable.make {p : Persister n C D} (h : Readable p) :
    ∃ base, Based base (Raft.make p).log ∧ Beside base p.snapshot := by
  cases hsnapshot : p.snapshot with
  | none =>
      obtain ⟨base, hbased, hzero⟩ := h.log
      rw [make_log hsnapshot]
      exact ⟨base, hbased, fun h => ⟨hzero h, rfl⟩, nofun⟩
  | some snapshot =>
      obtain ⟨base, hbased, _⟩ := h.log
      rw [make_log_some hsnapshot]
      exact ⟨_, hbased.truncateLog _ _, beside_some (h.snapshot snapshot hsnapshot)⟩

/-! What a server reads back. -/

/-- A write leaves something to start with. -/
def Write.Leaves : Write n C D → Prop
  | .saveRaftState data => Rooted data.log
  | .saveSnapshot data => ∀ stored, data = some stored → 0 < stored.lastIncludedIndex

theorem Readable.write {p : Persister n C D} (h : Readable p) {write : Write n C D}
    (hwrite : write.Leaves) : Readable (p.write write) := by
  cases write with
  | saveRaftState data => exact ⟨hwrite, h.snapshot⟩
  | saveSnapshot data => exact ⟨h.log, hwrite⟩

theorem Readable.foldl {p : Persister n C D} {writes : List (Write n C D)} (hp : Readable p)
    (h : ∀ write ∈ writes, write.Leaves) : Readable (writes.foldl Persister.write p) := by
  induction writes generalizing p with
  | nil => exact hp
  | cons write rest ih =>
      obtain ⟨hwrite, hrest⟩ := List.forall_mem_cons.mp h
      exact ih (hp.write hwrite) hrest

/-- A server holds what it would read back. -/
structure Durable (rf : Raft n C D) : Prop where
  stored : Readable rf.persister
  back : (make rf.persister).log = rf.log

namespace Durable

variable {rf : Raft n C D}

theorem log (h : Durable rf) : ∃ base, Based base rf.log ∧ Beside base rf.persister.snapshot := by
  rw [← h.back]
  exact h.stored.make

theorem make {p : Persister n C D} (h : Readable p) : Durable (Raft.make p) :=
  ⟨by rwa [make_persister], by rw [make_persister]⟩

theorem of_saved {base : LogEntry C} (hlog : Based base rf.log)
    (hbase : Beside base rf.persister.snapshot) (hsaved : storedLog rf.persister = rf.log) :
    Durable rf := by
  refine ⟨⟨⟨base, by rwa [hsaved], fun h => (hbase.origin h).1⟩, fun _ h => hbase.pos h⟩, ?_⟩
  cases hsnapshot : rf.persister.snapshot with
  | none => rw [make_log hsnapshot, hsaved]
  | some snapshot =>
      rw [make_log_based, hsaved]
      rwa [hsnapshot, hsaved, ← hbase.covered snapshot hsnapshot]

end Durable

/-- Every server, and every request: a call stays in the cluster when it has been handled. -/
structure DurableCluster (s : Cluster n C D) : Prop where
  servers : ∀ i, Durable (s.rafts i)
  appends : ∀ call ∈ s.appendEntries,
    Consecutive (call.args.prevLogIndex + 1) call.args.entries
  installs : ∀ call ∈ s.installSnapshots,
    Beside (⟨call.args.lastIncludedIndex, call.args.lastIncludedTerm, none⟩ : LogEntry C)
      call.args.data

theorem Durable.step {s : Cluster n C D} {a : Action n C D} {i : Fin n} {rf : Raft n C D}
    (h : DurableCluster s) (hstep : CoreStep s a i rf) : Durable rf := by
  have hserver := h.servers i
  obtain ⟨base, hold, hbase⟩ := hserver.log
  cases hstep.rebased hold h.appends with
  | kept hlog hstores =>
      rcases hstores with heq | heq
      · exact ⟨by rw [heq]; exact hserver.stored, by rw [heq, hlog]; exact hserver.back⟩
      · refine .of_saved (by rwa [hlog]) (by rwa [heq]) (by rw [heq]; rfl)
  | spliced hbased hsaved hsnapshot => exact .of_saved hbased (by rwa [hsnapshot]) hsaved
  | compacted snapshot hbased hsaved hsnapshot hlow =>
      refine .of_saved hbased ?_ hsaved
      rw [hsnapshot]
      exact beside_some (Nat.lt_of_le_of_lt (Nat.zero_le _) hlow)
  | replaced call hcall hbased hsaved hsnapshot =>
      refine .of_saved hbased ?_ hsaved
      rw [hsnapshot]
      exact h.installs call hcall

theorem SnapshotCall.leaves {s : Cluster n C D} (h : DurableCluster s) {i : Fin n}
    {call : SnapshotCall n D} (hmade : call.MadeTo s i) :
    ∀ write ∈ call.writes (s.rafts i), write.Leaves := by
  obtain ⟨base, hbased, hbase⟩ := (h.servers i).log
  cases call with
  | startSnapshot snapshot index =>
      obtain ⟨last, hlast⟩ := hbased.exists_last
      rw [writes, startSnapshotWrites, hbased.head, hlast]
      dsimp only
      by_cases hrange : index ≤ base.logIndex ∨ index > last.logIndex
      · rw [if_pos hrange]
        exact List.forall_mem_nil _
      · rw [if_neg hrange]
        cases (s.rafts i).log[index - base.logIndex]? with
        | none => exact List.forall_mem_nil _
        | some entry =>
            have hcut := hbased.cut (show base.logIndex ≤ index by omega) entry.logTerm
            have hpos : 0 < index := by omega
            refine List.forall_mem_cons.mpr ⟨⟨_, hcut, fun hzero => ?_⟩,
              List.forall_mem_singleton.mpr fun stored hstored => ?_⟩
            · exact absurd hzero (Nat.ne_of_gt hpos)
            · obtain rfl := Option.some.inj hstored
              exact hpos
  | installSnapshot args =>
      obtain ⟨rpc, hrpc, _, rfl⟩ := hmade
      have hargs := h.installs rpc hrpc
      rw [writes, installSnapshotWrites]
      by_cases hterm : rpc.args.term < (s.rafts i).currentTerm
      · rw [if_pos hterm]
        exact List.forall_mem_nil _
      · rw [if_neg hterm]
        refine List.forall_mem_cons.mpr ⟨fun _ => hargs.pos,
          List.forall_mem_singleton.mpr ⟨_, hbased.truncateLog _ _, fun hzero => ?_⟩⟩
        exact (hargs.origin hzero).1

theorem durableCluster_init : DurableCluster (Cluster.init n C D) := by
  have hinit : Durable (Raft.make (⟨none, none⟩ : Persister n C D)) :=
    .make ⟨⟨_, .singleton _, fun _ => rfl⟩, nofun⟩
  exact ⟨fun _ => hinit, nofun, nofun⟩

theorem DurableCluster.step {s s' : Cluster n C D} {a : Action n C D}
    (h : DurableCluster s) (hstep : s.step a = some s') : DurableCluster s' := by
  refine ⟨?_, fun call' hmem => ?_, fun call' hmem => ?_⟩
  · refine Cluster.servers_step hstep h.servers (fun rf hrf => .make hrf.stored) ?_
    intro i rf eff hlocal
    exact .step h (.of_local hlocal)
  · rcases appendEntries_step hstep hmem with ⟨call, hcall, hchange⟩ | ⟨_, _, _, hsent⟩
    · rw [hchange.args_eq]
      exact h.appends call hcall
    · obtain ⟨base, hlog, _⟩ := (h.servers call'.caller).log
      exact hsent.consecutive hlog
  · rcases installSnapshots_step hstep hmem with ⟨call, hcall, hargs⟩ | ⟨first, hfirst, hargs⟩
    · rw [← hargs]
      exact h.installs call hcall
    · obtain ⟨base, hlog, hbase⟩ := (h.servers call'.caller).log
      rw [hlog.head] at hfirst
      obtain rfl := Option.some.inj hfirst
      rw [hargs]
      refine ⟨fun hzero => ?_, fun stored hstored => ?_⟩
      · obtain ⟨heq, hnone⟩ := hbase.origin hzero
        exact ⟨by rw [heq], hnone⟩
      · rw [hbase.covered stored hstored]
        rfl

theorem DurableCluster.crash {s : Cluster n C D} (h : DurableCluster s) {i : Fin n}
    {call : SnapshotCall n D} (hmade : call.MadeTo s i) (done : Nat) :
    DurableCluster (s.crash i call done) := by
  refine ⟨fun j => ?_, h.appends, h.installs⟩
  by_cases hj : j = i
  · subst hj
    rw [Cluster.crash_self]
    refine .make ((h.servers j).stored.foldl fun write hmem => ?_)
    exact call.leaves h hmade write (List.mem_of_mem_take hmem)
  · rw [Cluster.crash_of_ne s hj]
    exact h.servers j

theorem durable_run (run : CrashRun n C D) :
    ∀ k, k ≤ run.length → DurableCluster (run.state k) := by
  refine run.invariant durableCluster_init ?_
  intro s a s' h hstep
  rcases crashStep_cases hstep with ⟨action, _, haction⟩ | ⟨i, call, done, hmade, rfl⟩
  · exact h.step haction
  · exact h.crash hmade done

/-- What the index arithmetic of the program needs. -/
structure LogShape (s : Cluster n C D) : Prop where
  nonempty : ∀ i, (s.rafts i).log ≠ []
  consecutive : ∀ i base, (s.rafts i).log.head? = some base →
    Consecutive base.logIndex (s.rafts i).log
  appends : ∀ call ∈ s.appendEntries,
    Consecutive (call.args.prevLogIndex + 1) call.args.entries
  entryAt : ∀ i base last, (s.rafts i).log.head? = some base →
    (s.rafts i).log.getLast? = some last → ∀ index, base.logIndex ≤ index →
      index ≤ last.logIndex →
      ∃ entry, (s.rafts i).log[index - base.logIndex]? = some entry ∧ entry.logIndex = index

theorem Based.entryAt {base last : LogEntry C} {log : List (LogEntry C)} (h : Based base log)
    (hlast : log.getLast? = some last) {index : Nat} (hlow : base.logIndex ≤ index)
    (hhigh : index ≤ last.logIndex) :
    ∃ entry, log[index - base.logIndex]? = some entry ∧ entry.logIndex = index := by
  have hlength := h.last hlast
  have hget : log[index - base.logIndex]? = some log[index - base.logIndex] :=
    List.getElem?_eq_getElem (by omega)
  refine ⟨_, hget, ?_⟩
  rw [h.consecutive _ _ hget, Nat.add_sub_cancel' hlow]

theorem log_shape (run : CrashRun n C D) {k : Nat} (hk : k ≤ run.length) :
    LogShape (run.state k) := by
  have hdurable := durable_run run k hk
  refine ⟨fun i => ?_, fun i first hfirst => ?_, hdurable.appends,
    fun i first last hfirst hlast index hlow hhigh => ?_⟩
  · obtain ⟨base, hlog, _⟩ := (hdurable.servers i).log
    exact List.ne_nil_of_length_pos hlog.length_pos
  · obtain ⟨base, hlog, _⟩ := (hdurable.servers i).log
    rw [hlog.head] at hfirst
    obtain rfl := Option.some.inj hfirst
    exact hlog.consecutive
  · obtain ⟨base, hlog, _⟩ := (hdurable.servers i).log
    rw [hlog.head] at hfirst
    obtain rfl := Option.some.inj hfirst
    exact hlog.entryAt hlast hlow hhigh

/-- Server 0 crashes between the two writes of its first snapshot. -/
def crashedActs : List (CrashAction 3 Nat Unit) :=
  firstDelivery.map .step ++ [.startSnapshot 0 () 1 1, .step (.restart 1)]

def crashedRun : CrashRun 3 Nat Unit :=
  Lib.Run.ofActions crashedActs (by decide +kernel)

theorem log_shape_crashed :
    ((crashedRun.state 24).rafts 0).log = [⟨1, 1, none⟩] ∧
      ((crashedRun.state 24).rafts 0).persister.snapshot = none ∧
      LogShape (crashedRun.state 24) :=
  ⟨by decide +kernel, by decide +kernel, log_shape crashedRun (by decide)⟩

end BlockchainTutorial.Raft
