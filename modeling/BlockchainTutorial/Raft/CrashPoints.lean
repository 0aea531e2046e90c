import BlockchainTutorial.Raft.Safety
import BlockchainTutorial.Raft.Stored

namespace BlockchainTutorial.Raft

/-! Crashes at any moment, also between the two writes of a snapshot. -/

variable {n : Nat} {C D : Type}

/-! The writes, in the order of the source. -/

inductive Write (n : Nat) (C D : Type) where
  | saveRaftState (data : RaftState n C)
  | saveSnapshot (data : Option (Snapshot D))

def Persister.write (p : Persister n C D) : Write n C D → Persister n C D
  | .saveRaftState data => { p with raftstate := some data }
  | .saveSnapshot data => { p with snapshot := data }

def startSnapshotWrites (rf : Raft n C D) (snapshot : D) (index : Nat) :
    List (Write n C D) :=
  match rf.log.head?, rf.log.getLast? with
  | some base, some last =>
      if index ≤ base.logIndex ∨ index > last.logIndex then []
      else
        match rf.log[index - base.logIndex]? with
        | none => []
        | some entry =>
            [.saveRaftState ⟨rf.currentTerm, rf.votedFor,
                ⟨index, entry.logTerm, none⟩ :: rf.log.drop (index + 1 - base.logIndex)⟩,
              .saveSnapshot (some ⟨index, entry.logTerm, snapshot⟩)]
  | _, _ => []

def installSnapshotWrites (rf : Raft n C D) (args : InstallSnapshotArgs n D) :
    List (Write n C D) :=
  if args.term < rf.currentTerm then []
  else
    [.saveSnapshot args.data,
      .saveRaftState ⟨rf.currentTerm, rf.votedFor,
        truncateLog args.lastIncludedIndex args.lastIncludedTerm rf.log⟩]

theorem startSnapshot_writes (rf : Raft n C D) (snapshot : D) (index : Nat) :
    (rf.startSnapshot snapshot index).1.persister =
      (rf.startSnapshotWrites snapshot index).foldl Persister.write rf.persister := by
  unfold startSnapshot startSnapshotWrites
  cases rf.log.head? with
  | none => rfl
  | some base =>
      cases rf.log.getLast? with
      | none => rfl
      | some last =>
          dsimp only
          split
          · rfl
          · cases rf.log[index - base.logIndex]? <;> rfl

theorem installSnapshot_writes (rf : Raft n C D) (args : InstallSnapshotArgs n D) :
    (rf.installSnapshot args).1.persister =
      (rf.installSnapshotWrites args).foldl Persister.write rf.persister := by
  unfold installSnapshot installSnapshotWrites
  split <;> rfl

/-- The two calls that write a snapshot. -/
inductive SnapshotCall (n : Nat) (D : Type) where
  | startSnapshot (snapshot : D) (index : Nat)
  | installSnapshot (args : InstallSnapshotArgs n D)

namespace SnapshotCall

def writes (rf : Raft n C D) : SnapshotCall n D → List (Write n C D)
  | .startSnapshot snapshot index => rf.startSnapshotWrites snapshot index
  | .installSnapshot args => rf.installSnapshotWrites args

/-- The server that has handled the call. -/
def handled (rf : Raft n C D) : SnapshotCall n D → Raft n C D
  | .startSnapshot snapshot index => (rf.startSnapshot snapshot index).1
  | .installSnapshot args => (rf.installSnapshot args).1

theorem handled_persister (rf : Raft n C D) (call : SnapshotCall n D) :
    (call.handled rf).persister = (call.writes rf).foldl Persister.write rf.persister := by
  cases call with
  | startSnapshot snapshot index => exact rf.startSnapshot_writes snapshot index
  | installSnapshot args => exact rf.installSnapshot_writes args

theorem length_writes_le (rf : Raft n C D) (call : SnapshotCall n D) :
    (call.writes rf).length ≤ 2 := by
  cases call with
  | startSnapshot snapshot index =>
      rw [writes, startSnapshotWrites]
      cases rf.log.head? with
      | none => exact Nat.zero_le 2
      | some base =>
          cases rf.log.getLast? with
          | none => exact Nat.zero_le 2
          | some last =>
              dsimp only
              split
              · exact Nat.zero_le 2
              · cases rf.log[index - base.logIndex]? with
                | none => exact Nat.zero_le 2
                | some entry => exact Nat.le_refl 2
  | installSnapshot args =>
      rw [writes, installSnapshotWrites]
      split
      · exact Nat.zero_le 2
      · exact Nat.le_refl 2

/-- The service calls `StartSnapshot` as it likes; `InstallSnapshot` comes from a peer. -/
def MadeTo (s : Cluster n C D) (i : Fin n) : SnapshotCall n D → Prop
  | .startSnapshot .. => True
  | .installSnapshot args =>
      ∃ call ∈ s.installSnapshots, call.server = i ∧ call.args = args

end SnapshotCall

/-- The server that starts again after `done` of the writes of a call. -/
def restarted (rf : Raft n C D) (call : SnapshotCall n D) (done : Nat) : Raft n C D :=
  make (((call.writes rf).take done).foldl Persister.write rf.persister)

/-- After all writes, the server reads back what it had stored when the call was handled. -/
theorem restarted_handled (rf : Raft n C D) (call : SnapshotCall n D) {done : Nat}
    (hdone : 2 ≤ done) : restarted rf call done = make (call.handled rf).persister := by
  rw [restarted, List.take_of_length_le (Nat.le_trans (call.length_writes_le rf) hdone),
    call.handled_persister]

/-! A crash while a snapshot is written. -/

namespace Cluster

/-- Server `i` starts again after `done` of the writes of the call. -/
def crash (s : Cluster n C D) (i : Fin n) (call : SnapshotCall n D) (done : Nat) :
    Cluster n C D :=
  { s with
    rafts := Function.update s.rafts i (restarted (s.rafts i) call done)
    epoch := Function.update s.epoch i (s.epoch i + 1) }

theorem crash_self (s : Cluster n C D) (i : Fin n) (call : SnapshotCall n D) (done : Nat) :
    (s.crash i call done).rafts i = restarted (s.rafts i) call done :=
  Function.update_self _ _ _

theorem crash_of_ne (s : Cluster n C D) {i j : Fin n} (h : j ≠ i) (call : SnapshotCall n D)
    (done : Nat) : (s.crash i call done).rafts j = s.rafts j :=
  Function.update_of_ne h _ _

end Cluster

inductive CrashAction (n : Nat) (C D : Type) where
  | step (a : Action n C D)
  | startSnapshot (i : Fin n) (snapshot : D) (index done : Nat)
  | installSnapshot (call done : Nat)
  deriving Inhabited

/-- A request whose server crashes may come once more here, which it cannot in `labrpc`. -/
def crashStep (s : Cluster n C D) : CrashAction n C D → Option (Cluster n C D)
  | .step a => s.step a
  | .startSnapshot i snapshot index done =>
      some (s.crash i (.startSnapshot snapshot index) done)
  | .installSnapshot k done =>
      match s.installSnapshots[k]? with
      | none => none
      | some call =>
          if call.reply.isSome then none
          else some (s.crash call.server (.installSnapshot call.args) done)

abbrev CrashRun (n : Nat) (C D : Type) :=
  Lib.Run (Cluster.init n C D) crashStep

theorem crashStep_cases {s s' : Cluster n C D} {a : CrashAction n C D}
    (h : crashStep s a = some s') :
    (∃ action, a = .step action ∧ s.step action = some s') ∨
      ∃ i call done, call.MadeTo s i ∧ s' = s.crash i call done := by
  cases a with
  | step action => exact .inl ⟨action, rfl, h⟩
  | startSnapshot i snapshot index done =>
      exact .inr ⟨i, .startSnapshot snapshot index, done, trivial, (Option.some.inj h).symm⟩
  | installSnapshot k done =>
      rw [crashStep] at h
      split at h
      · cases h
      · rename_i call hcall
        split at h
        · cases h
        · exact .inr ⟨call.server, .installSnapshot call.args, done,
            ⟨call, List.mem_of_getElem? hcall, rfl, rfl⟩, (Option.some.inj h).symm⟩

end BlockchainTutorial.Raft
