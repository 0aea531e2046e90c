import Mathlib.Data.Fintype.Basic

namespace BlockchainTutorial

/-! One server of `raft.go`. Each definition is one mutex-protected body, or one
transition of the state loop of `Make`, as a function on the server's fields. -/

namespace Raft

inductive ServerState where
  | leader
  | candidate
  | follower
  deriving DecidableEq, Repr

structure LogEntry (C : Type) where
  logIndex : Nat
  logTerm : Nat
  logComd : Option C
  deriving DecidableEq, Repr

structure ApplyMsg (C D : Type) where
  index : Nat
  command : Option C
  useSnapshot : Bool
  snapshot : Option D
  deriving DecidableEq, Repr

/-- What `persist` encodes. -/
structure RaftState (n : Nat) (C : Type) where
  currentTerm : Nat
  votedFor : Option (Fin n)
  log : List (LogEntry C)

/-- What `StartSnapshot` encodes in front of the service's bytes. -/
structure Snapshot (D : Type) where
  lastIncludedIndex : Nat
  lastIncludedTerm : Nat
  data : D

structure Persister (n : Nat) (C D : Type) where
  raftstate : Option (RaftState n C)
  snapshot : Option (Snapshot D)

structure RequestVoteArgs (n : Nat) where
  term : Nat
  candidateId : Fin n
  lastLogTerm : Nat
  lastLogIndex : Nat

structure RequestVoteReply where
  term : Nat
  voteGranted : Bool

structure AppendEntriesArgs (n : Nat) (C : Type) where
  term : Nat
  leaderId : Fin n
  prevLogTerm : Nat
  prevLogIndex : Nat
  entries : List (LogEntry C)
  leaderCommit : Nat

structure AppendEntriesReply where
  term : Nat
  success : Bool
  nextIndex : Nat

structure InstallSnapshotArgs (n : Nat) (D : Type) where
  term : Nat
  leaderId : Fin n
  lastIncludedIndex : Nat
  lastIncludedTerm : Nat
  data : Option (Snapshot D)

/-- `reply.Term` stays zero unless the handler rejects. -/
structure InstallSnapshotReply where
  term : Nat

/-- Where the goroutine of the state loop stands. -/
inductive LoopPoint where
  | top
  | follower
  | leader
  | candidate
  | waiting
  | elected (term : Nat)
  deriving DecidableEq, Repr

/-- A goroutine running `boatcastRequestVote`: not yet past its locked reads, or
about to look at peer number `next`. -/
inductive VoteJob (n : Nat) where
  | scheduled
  | sending (args : RequestVoteArgs n) (next : Nat)

end Raft

open Raft in
/-- The fields of a `Raft`. `votedFor` is `none` for -1. A token on `chanLeader`
is written as the term it was queued in; the code queues `true`, and no step
below depends on the number. -/
structure Raft (n : Nat) (C D : Type) where
  persister : Persister n C D
  state : ServerState
  voteCount : Nat
  chanCommit : Nat
  chanHeartbeat : Nat
  chanGrantVote : Nat
  chanLeader : List Nat
  currentTerm : Nat
  votedFor : Option (Fin n)
  log : List (LogEntry C)
  commitIndex : Nat
  lastApplied : Nat
  nextIndex : Fin n → Nat
  matchIndex : Fin n → Nat
  loop : LoopPoint
  voteJobs : List (VoteJob n)
  snapshotMsgs : List (Snapshot D)

namespace Raft

/-- What a step of one server puts on the network and on `applyCh`. After a
panic only what was sent before it counts. -/
structure Effects (n : Nat) (C D : Type) where
  requestVotes : List (Fin n × RequestVoteArgs n) := []
  appendEntries : List (Fin n × AppendEntriesArgs n C) := []
  installSnapshots : List (Fin n × InstallSnapshotArgs n D) := []
  applied : List (ApplyMsg C D) := []
  panicked : Bool := false

def chanCap : Nat := 100

variable {n : Nat} {C D : Type}

/-- What follows the last entry with the given index and term, if there is one.
The scan of `truncateLog` runs from the back. -/
def entriesAfter (index term : Nat) : List (LogEntry C) → Option (List (LogEntry C))
  | [] => none
  | entry :: rest =>
      match entriesAfter index term rest with
      | some found => some found
      | none =>
          if entry.logIndex = index ∧ entry.logTerm = term then some rest else none

def truncateLog (lastIncludedIndex lastIncludedTerm : Nat)
    (log : List (LogEntry C)) : List (LogEntry C) :=
  ⟨lastIncludedIndex, lastIncludedTerm, none⟩ ::
    (entriesAfter lastIncludedIndex lastIncludedTerm log).getD []

/-- The backward scan of a rejecting `AppendEntries`, with `count` entries left
to look at. `reply.NextIndex` stays zero when the scan finds nothing. -/
def conflictIndex (log : List (LogEntry C)) (baseIndex term : Nat) : Nat → Nat
  | 0 => 0
  | count + 1 =>
      match log[count]? with
      | none => 0
      | some entry =>
          if entry.logTerm ≠ term then baseIndex + count + 1
          else conflictIndex log baseIndex term count

def persist (rf : Raft n C D) : Raft n C D :=
  { rf with persister := { rf.persister with
      raftstate := some ⟨rf.currentTerm, rf.votedFor, rf.log⟩ } }

/-- A term seen in a request that is newer than the server's. -/
def observeTerm (rf : Raft n C D) (term : Nat) : Raft n C D :=
  if term > rf.currentTerm then
    { rf with currentTerm := term, state := .follower, votedFor := none }
  else rf

/-- `rf.log[i-baseIndex]`, or nothing where Go would panic. -/
def entryAt (rf : Raft n C D) (i : Nat) : Option (LogEntry C) :=
  match rf.log.head? with
  | none => none
  | some base => if i < base.logIndex then none else rf.log[i - base.logIndex]?

def upToDate (args : RequestVoteArgs n) (last : LogEntry C) : Bool :=
  decide (args.lastLogTerm > last.logTerm) ||
    (args.lastLogTerm == last.logTerm && decide (args.lastLogIndex ≥ last.logIndex))

/-! Handlers. A handler without a reply has panicked; its deferred `persist`
has run all the same. -/

def requestVote (rf : Raft n C D) (args : RequestVoteArgs n) :
    Raft n C D × Option RequestVoteReply :=
  if args.term < rf.currentTerm then
    (rf.persist, some ⟨rf.currentTerm, false⟩)
  else
    let rf := rf.observeTerm args.term
    match rf.log.getLast? with
    | none => (rf.persist, none)
    | some last =>
        if (rf.votedFor = none ∨ rf.votedFor = some args.candidateId) ∧
            upToDate args last then
          ({ rf with
              chanGrantVote := rf.chanGrantVote + 1
              state := .follower
              votedFor := some args.candidateId }.persist,
            some ⟨rf.currentTerm, true⟩)
        else (rf.persist, some ⟨rf.currentTerm, false⟩)

/-- The end of `AppendEntries`, once the previous entry is accepted. -/
def acceptEntries (rf : Raft n C D) (args : AppendEntriesArgs n C)
    (baseIndex : Nat) : Raft n C D × Option AppendEntriesReply :=
  let replied : Raft n C D × AppendEntriesReply :=
    if args.prevLogIndex < baseIndex then (rf, ⟨args.term, false, 0⟩)
    else
      let log := rf.log.take (args.prevLogIndex + 1 - baseIndex) ++ args.entries
      ({ rf with log }, ⟨args.term, true,
        (log.getLast?.map (·.logIndex)).getD 0 + 1⟩)
  match replied.1.log.getLast? with
  | none => (replied.1.persist, none)
  | some last =>
      if args.leaderCommit > replied.1.commitIndex then
        ({ replied.1 with
            commitIndex := min args.leaderCommit last.logIndex
            chanCommit := replied.1.chanCommit + 1 }.persist, some replied.2)
      else (replied.1.persist, some replied.2)

def appendEntries (rf : Raft n C D) (args : AppendEntriesArgs n C) :
    Raft n C D × Option AppendEntriesReply :=
  match rf.log.head?, rf.log.getLast? with
  | some base, some last =>
      if args.term < rf.currentTerm then
        (rf.persist, some ⟨rf.currentTerm, false, last.logIndex + 1⟩)
      else
        let rf := { rf with chanHeartbeat := rf.chanHeartbeat + 1 }.observeTerm args.term
        if args.prevLogIndex > last.logIndex then
          (rf.persist, some ⟨args.term, false, last.logIndex + 1⟩)
        else if args.prevLogIndex > base.logIndex then
          match rf.log[args.prevLogIndex - base.logIndex]? with
          | none => (rf.persist, none)
          | some prev =>
              if args.prevLogTerm ≠ prev.logTerm then
                (rf.persist, some ⟨args.term, false,
                  conflictIndex rf.log base.logIndex prev.logTerm
                    (args.prevLogIndex - base.logIndex)⟩)
              else rf.acceptEntries args base.logIndex
        else rf.acceptEntries args base.logIndex
  | _, _ => ((rf.observeTerm args.term).persist, none)

def installSnapshot (rf : Raft n C D) (args : InstallSnapshotArgs n D) :
    Raft n C D × InstallSnapshotReply × List (ApplyMsg C D) :=
  if args.term < rf.currentTerm then (rf, ⟨rf.currentTerm⟩, [])
  else
    ({ rf with
        chanHeartbeat := rf.chanHeartbeat + 1
        state := .follower
        persister := { rf.persister with snapshot := args.data }
        log := truncateLog args.lastIncludedIndex args.lastIncludedTerm rf.log
        lastApplied := args.lastIncludedIndex
        commitIndex := args.lastIncludedIndex }.persist,
      ⟨0⟩, [⟨0, none, true, args.data.map (·.data)⟩])

/-! What the three senders do once `Call` has returned true. -/

def sendRequestVote (rf : Raft n C D) (args : RequestVoteArgs n)
    (reply : RequestVoteReply) : Raft n C D :=
  if rf.state ≠ .candidate then rf
  else if args.term ≠ rf.currentTerm then rf
  else
    let rf := if reply.term > rf.currentTerm then (rf.observeTerm reply.term).persist else rf
    if reply.voteGranted then
      let rf := { rf with voteCount := rf.voteCount + 1 }
      if rf.state = .candidate ∧ rf.voteCount > n / 2 then
        { rf with state := .follower, chanLeader := rf.chanLeader ++ [rf.currentTerm] }
      else rf
    else rf

def sendAppendEntries (rf : Raft n C D) (server : Fin n)
    (args : AppendEntriesArgs n C) (reply : AppendEntriesReply) : Raft n C D :=
  if rf.state ≠ .leader then rf
  else if args.term ≠ rf.currentTerm then rf
  else if reply.term > rf.currentTerm then (rf.observeTerm reply.term).persist
  else if reply.success then
    match args.entries.getLast? with
    | none => rf
    | some last =>
        { rf with
          nextIndex := Function.update rf.nextIndex server (last.logIndex + 1)
          matchIndex := Function.update rf.matchIndex server last.logIndex }
  else { rf with nextIndex := Function.update rf.nextIndex server reply.nextIndex }

/-- Neither locks nor persists. -/
def sendInstallSnapshot (rf : Raft n C D) (server : Fin n)
    (args : InstallSnapshotArgs n D) (reply : InstallSnapshotReply) : Raft n C D :=
  if reply.term > rf.currentTerm then rf.observeTerm reply.term
  else
    { rf with
      nextIndex := Function.update rf.nextIndex server (args.lastIncludedIndex + 1)
      matchIndex := Function.update rf.matchIndex server args.lastIncludedIndex }

/-! The service's calls. -/

def start (rf : Raft n C D) (command : C) : Raft n C D × Effects n C D :=
  if rf.state = .leader then
    match rf.log.getLast? with
    | none => (rf, { panicked := true })
    | some last =>
        let entry : LogEntry C := ⟨last.logIndex + 1, rf.currentTerm, some command⟩
        ({ rf with log := rf.log ++ [entry] }.persist, {})
  else (rf, {})

def startSnapshot (rf : Raft n C D) (snapshot : D) (index : Nat) :
    Raft n C D × Effects n C D :=
  match rf.log.head?, rf.log.getLast? with
  | some base, some last =>
      if index ≤ base.logIndex ∨ index > last.logIndex then (rf, {})
      else
        match rf.log[index - base.logIndex]? with
        | none => (rf, { panicked := true })
        | some entry =>
            let newBase : LogEntry C := ⟨index, entry.logTerm, none⟩
            let rf := { rf with
              log := newBase :: rf.log.drop (index + 1 - base.logIndex) }.persist
            ({ rf with persister := { rf.persister with
                snapshot := some ⟨index, entry.logTerm, snapshot⟩ } }, {})
  | _, _ => (rf, { panicked := true })

/-! `boatcastRequestVote`, one goroutine step at a time: the locked reads, then
one look at `rf.state` for each peer. -/

def boatcastRequestVote (me : Fin n) (rf : Raft n C D) (job : Nat) :
    Option (Raft n C D × Effects n C D) :=
  match rf.voteJobs[job]? with
  | none => none
  | some .scheduled =>
      match rf.log.getLast? with
      | none => some (rf, { panicked := true })
      | some last =>
          let args : RequestVoteArgs n :=
            ⟨rf.currentTerm, me, last.logTerm, last.logIndex⟩
          some ({ rf with voteJobs := rf.voteJobs.set job (.sending args 0) }, {})
  | some (.sending args next) =>
      if h : next < n then
        some ({ rf with voteJobs := rf.voteJobs.set job (.sending args (next + 1)) },
          if ⟨next, h⟩ ≠ me ∧ rf.state = .candidate then
            { requestVotes := [(⟨next, h⟩, args)] }
          else {})
      else none

/-! `boatcastAppendEntries`. -/

/-- `num` of the commit loop at index `i`. -/
def countReplicas (me : Fin n) (rf : Raft n C D) (i : Nat) : Option Nat :=
  (List.finRange n).foldlM (fun num j =>
    if j ≠ me ∧ rf.matchIndex j ≥ i then
      (rf.entryAt i).map fun entry =>
        if entry.logTerm = rf.currentTerm then num + 1 else num
    else some num) 1

/-- `N` after the commit loop has looked at `count` indexes from `i` on. -/
def commitLoop (me : Fin n) (rf : Raft n C D) : Nat → Nat → Nat → Option Nat
  | _, 0, commit => some commit
  | i, count + 1, commit =>
      (rf.countReplicas me i).bind fun num =>
        rf.commitLoop me (i + 1) count (if 2 * num > n then i else commit)

/-- The loop over the peers. A panic ends it, after the calls already started. -/
def replicate (me : Fin n) (rf : Raft n C D) (base : LogEntry C) :
    List (Fin n) → Effects n C D
  | [] => {}
  | i :: peers =>
      if i ≠ me ∧ rf.state = .leader then
        if rf.nextIndex i > base.logIndex then
          let prevLogIndex := rf.nextIndex i - 1
          match rf.log[prevLogIndex - base.logIndex]? with
          | none => { panicked := true }
          | some prev =>
              let rest := rf.replicate me base peers
              { rest with appendEntries := (i,
                  ⟨rf.currentTerm, me, prev.logTerm, prevLogIndex,
                    rf.log.drop (prevLogIndex + 1 - base.logIndex),
                    rf.commitIndex⟩) :: rest.appendEntries }
        else
          let rest := rf.replicate me base peers
          { rest with installSnapshots := (i,
              ⟨rf.currentTerm, me, base.logIndex, base.logTerm,
                rf.persister.snapshot⟩) :: rest.installSnapshots }
      else rf.replicate me base peers

def boatcastAppendEntries (me : Fin n) (rf : Raft n C D) :
    Raft n C D × Effects n C D :=
  match rf.log.head?, rf.log.getLast? with
  | some base, some last =>
      match rf.commitLoop me (rf.commitIndex + 1) (last.logIndex - rf.commitIndex)
          rf.commitIndex with
      | none => (rf, { panicked := true })
      | some commit =>
          let rf := if commit ≠ rf.commitIndex then
              { rf with commitIndex := commit, chanCommit := rf.chanCommit + 1 }
            else rf
          (rf, rf.replicate me base (List.finRange n))
  | _, _ => (rf, { panicked := true })

/-! The two goroutines that feed `applyCh`. -/

def applyFrom (rf : Raft n C D) : Nat → Nat → Raft n C D × Effects n C D
  | _, 0 => (rf, {})
  | i, count + 1 =>
      match rf.entryAt i with
      | none => (rf, { panicked := true })
      | some entry =>
          let rest := { rf with lastApplied := i }.applyFrom (i + 1) count
          (rest.1, { rest.2 with
            applied := ⟨i, entry.logComd, false, none⟩ :: rest.2.applied })

def applyCommitted (rf : Raft n C D) : Option (Raft n C D × Effects n C D) :=
  if rf.chanCommit = 0 then none
  else some ({ rf with chanCommit := rf.chanCommit - 1 }.applyFrom
    (rf.lastApplied + 1) (rf.commitIndex - rf.lastApplied))

def applySnapshot (rf : Raft n C D) : Option (Raft n C D × Effects n C D) :=
  match rf.snapshotMsgs with
  | [] => none
  | snapshot :: rest =>
      some ({ rf with snapshotMsgs := rest },
        { applied := [⟨0, none, true, some snapshot.data⟩] })

/-! `Make`. -/

def readPersist (rf : Raft n C D) : Option (RaftState n C) → Raft n C D
  | none => rf
  | some data =>
      { rf with
        currentTerm := data.currentTerm
        votedFor := data.votedFor
        log := data.log }

def readSnapshot (rf : Raft n C D) (data : Option (Snapshot D)) : Raft n C D :=
  let rf := rf.readPersist rf.persister.raftstate
  match data with
  | none => rf
  | some snapshot =>
      { rf with
        commitIndex := snapshot.lastIncludedIndex
        lastApplied := snapshot.lastIncludedIndex
        log := truncateLog snapshot.lastIncludedIndex snapshot.lastIncludedTerm rf.log
        snapshotMsgs := rf.snapshotMsgs ++ [snapshot] }

/-- The fields `Make` sets before it reads the persister. -/
def blank (persister : Persister n C D) : Raft n C D where
  persister
  state := .follower
  voteCount := 0
  chanCommit := 0
  chanHeartbeat := 0
  chanGrantVote := 0
  chanLeader := []
  currentTerm := 0
  votedFor := none
  log := [⟨0, 0, none⟩]
  commitIndex := 0
  lastApplied := 0
  nextIndex := fun _ => 0
  matchIndex := fun _ => 0
  loop := .top
  voteJobs := []
  snapshotMsgs := []

def make (persister : Persister n C D) : Raft n C D :=
  ((blank persister).readPersist persister.raftstate).readSnapshot persister.snapshot

/-! The state loop of `Make`. -/

/-- Which case of a `select` is taken, where there is a choice. -/
inductive LoopChoice where
  | proceed
  | heartbeat
  | grantVote
  | timeout
  | chanLeader
  deriving DecidableEq, Repr

def campaign (me : Fin n) (rf : Raft n C D) : Raft n C D :=
  let rf := { rf with
    currentTerm := rf.currentTerm + 1
    votedFor := some me
    voteCount := 1 }.persist
  { rf with voteJobs := rf.voteJobs ++ [.scheduled], loop := .waiting }

def becomeLeader (rf : Raft n C D) : Raft n C D × Effects n C D :=
  match rf.log.getLast? with
  | none => (rf, { panicked := true })
  | some last =>
      ({ rf with
          state := .leader
          nextIndex := fun _ => last.logIndex + 1
          matchIndex := fun _ => 0
          loop := .top }, {})

def loopStep (me : Fin n) (rf : Raft n C D) :
    LoopChoice → Option (Raft n C D × Effects n C D)
  | .proceed =>
      match rf.loop with
      | .top =>
          match rf.state with
          | .follower => some ({ rf with loop := .follower }, {})
          | .leader => some ({ rf with loop := .leader }, {})
          | .candidate => some ({ rf with loop := .candidate }, {})
      | .leader =>
          let sent := rf.boatcastAppendEntries me
          some ({ sent.1 with loop := .top }, sent.2)
      | .candidate => some (rf.campaign me, {})
      | .elected _ => some rf.becomeLeader
      | _ => none
  | .heartbeat =>
      if rf.chanHeartbeat = 0 then none
      else match rf.loop with
      | .follower =>
          some ({ rf with chanHeartbeat := rf.chanHeartbeat - 1, loop := .top }, {})
      | .waiting =>
          some ({ rf with
            chanHeartbeat := rf.chanHeartbeat - 1
            state := .follower
            loop := .top }, {})
      | _ => none
  | .grantVote =>
      match rf.loop with
      | .follower =>
          if rf.chanGrantVote = 0 then none
          else some ({ rf with chanGrantVote := rf.chanGrantVote - 1, loop := .top }, {})
      | _ => none
  | .timeout =>
      match rf.loop with
      | .follower => some ({ rf with state := .candidate, loop := .top }, {})
      | .waiting => some ({ rf with loop := .top }, {})
      | _ => none
  | .chanLeader =>
      match rf.loop, rf.chanLeader with
      | .waiting, term :: rest =>
          some ({ rf with chanLeader := rest, loop := .elected term }, {})
      | _, _ => none

/-- No channel holds more than its capacity. A send on a full channel blocks, so
a step that would end otherwise is not taken. -/
def withinChans (rf : Raft n C D) : Bool :=
  decide (rf.chanCommit ≤ chanCap) && decide (rf.chanHeartbeat ≤ chanCap) &&
    decide (rf.chanGrantVote ≤ chanCap) && decide (rf.chanLeader.length ≤ chanCap)

end Raft

end BlockchainTutorial
