import BlockchainTutorial.Lib.Run
import BlockchainTutorial.Raft.Server
import Mathlib.Logic.Function.Basic

namespace BlockchainTutorial.Raft

/-! A cluster of servers over `labrpc`. A call stays in the cluster for good:
its request is delivered at most once, its reply comes back at most once, and
either may never happen. Nothing orders two calls. -/

/-- One `Call`. `epoch` is the caller's incarnation, since `config.go` gives a
restarted server new client ends. -/
structure Rpc (n : Nat) (Args Reply : Type) where
  caller : Fin n
  epoch : Nat
  server : Fin n
  args : Args
  reply : Option Reply
  returned : Bool

structure Cluster (n : Nat) (C D : Type) where
  rafts : Fin n → Raft n C D
  epoch : Fin n → Nat
  requestVotes : List (Rpc n (RequestVoteArgs n) RequestVoteReply)
  appendEntries : List (Rpc n (AppendEntriesArgs n C) AppendEntriesReply)
  installSnapshots : List (Rpc n (InstallSnapshotArgs n D) InstallSnapshotReply)
  delivered : List (Fin n × ApplyMsg C D)

inductive Action (n : Nat) (C D : Type) where
  | start (i : Fin n) (command : C)
  | startSnapshot (i : Fin n) (snapshot : D) (index : Nat)
  | loop (i : Fin n) (choice : LoopChoice)
  | boatcastRequestVote (i : Fin n) (job : Nat)
  | applyCommitted (i : Fin n)
  | applySnapshot (i : Fin n)
  | requestVote (call : Nat)
  | sendRequestVote (call : Nat)
  | appendEntries (call : Nat)
  | sendAppendEntries (call : Nat)
  | installSnapshot (call : Nat)
  | sendInstallSnapshot (call : Nat)
  | restart (i : Fin n)
  deriving Inhabited

variable {n : Nat} {C D : Type}

namespace Cluster

def init (n : Nat) (C D : Type) : Cluster n C D where
  rafts := fun _ => make ⟨none, none⟩
  epoch := fun _ => 0
  requestVotes := []
  appendEntries := []
  installSnapshots := []
  delivered := []

def calls {Args Reply : Type} (s : Cluster n C D) (i : Fin n)
    (sent : List (Fin n × Args)) : List (Rpc n Args Reply) :=
  sent.map fun (server, args) => ⟨i, s.epoch i, server, args, none, false⟩

def restart (s : Cluster n C D) (i : Fin n) : Cluster n C D :=
  { s with
    rafts := Function.update s.rafts i (make (s.rafts i).persister)
    epoch := Function.update s.epoch i (s.epoch i + 1) }

/-- Server `i` has moved to `rf`. A server that panicked is left with its
persister; until it is started again it takes no step, so it may as well be
started at once. -/
def moved (s : Cluster n C D) (i : Fin n) (rf : Raft n C D) (eff : Effects n C D) :
    Cluster n C D :=
  let s' : Cluster n C D := { s with
    rafts := Function.update s.rafts i rf
    requestVotes := s.requestVotes ++ s.calls i eff.requestVotes
    appendEntries := s.appendEntries ++ s.calls i eff.appendEntries
    installSnapshots := s.installSnapshots ++ s.calls i eff.installSnapshots
    delivered := s.delivered ++ eff.applied.map (i, ·) }
  if eff.panicked then s'.restart i else s'

/-- The same, unless the step would block on a full channel. -/
def move (s : Cluster n C D) (i : Fin n) (rf : Raft n C D) (eff : Effects n C D) :
    Option (Cluster n C D) :=
  if rf.withinChans then some (s.moved i rf eff) else none

def stepRequestVote (s : Cluster n C D) (k : Nat) : Option (Cluster n C D) :=
  match s.requestVotes[k]? with
  | none => none
  | some call =>
      if call.reply.isSome then none
      else
        let handled := (s.rafts call.server).requestVote call.args
        { s with requestVotes := s.requestVotes.set k { call with reply := handled.2 } }.move
          call.server handled.1 { panicked := handled.2.isNone }

def stepAppendEntries (s : Cluster n C D) (k : Nat) : Option (Cluster n C D) :=
  match s.appendEntries[k]? with
  | none => none
  | some call =>
      if call.reply.isSome then none
      else
        let handled := (s.rafts call.server).appendEntries call.args
        { s with appendEntries := s.appendEntries.set k { call with reply := handled.2 } }.move
          call.server handled.1 { panicked := handled.2.isNone }

def stepInstallSnapshot (s : Cluster n C D) (k : Nat) : Option (Cluster n C D) :=
  match s.installSnapshots[k]? with
  | none => none
  | some call =>
      if call.reply.isSome then none
      else
        let handled := (s.rafts call.server).installSnapshot call.args
        { s with
          installSnapshots :=
            s.installSnapshots.set k { call with reply := some handled.2.1 } }.move
          call.server handled.1 { applied := handled.2.2 }

/-- A reply is handled once, and only by the incarnation that made the call. -/
def pendingReply {Args Reply : Type} (s : Cluster n C D) (call : Rpc n Args Reply) :
    Option Reply :=
  if call.returned ∨ call.epoch ≠ s.epoch call.caller then none else call.reply

def stepSendRequestVote (s : Cluster n C D) (k : Nat) : Option (Cluster n C D) :=
  match s.requestVotes[k]? with
  | none => none
  | some call =>
      (s.pendingReply call).bind fun reply =>
        { s with requestVotes := s.requestVotes.set k { call with returned := true } }.move
          call.caller ((s.rafts call.caller).sendRequestVote call.args reply) {}

def stepSendAppendEntries (s : Cluster n C D) (k : Nat) : Option (Cluster n C D) :=
  match s.appendEntries[k]? with
  | none => none
  | some call =>
      (s.pendingReply call).bind fun reply =>
        { s with appendEntries := s.appendEntries.set k { call with returned := true } }.move
          call.caller
          ((s.rafts call.caller).sendAppendEntries call.server call.args reply) {}

def stepSendInstallSnapshot (s : Cluster n C D) (k : Nat) : Option (Cluster n C D) :=
  match s.installSnapshots[k]? with
  | none => none
  | some call =>
      (s.pendingReply call).bind fun reply =>
        { s with
          installSnapshots := s.installSnapshots.set k { call with returned := true } }.move
          call.caller
          ((s.rafts call.caller).sendInstallSnapshot call.server call.args reply) {}

def step (s : Cluster n C D) : Action n C D → Option (Cluster n C D)
  | .start i command =>
      let out := (s.rafts i).start command
      s.move i out.1 out.2
  | .startSnapshot i snapshot index =>
      let out := (s.rafts i).startSnapshot snapshot index
      s.move i out.1 out.2
  | .loop i choice => ((s.rafts i).loopStep i choice).bind fun out => s.move i out.1 out.2
  | .boatcastRequestVote i job =>
      ((s.rafts i).boatcastRequestVote i job).bind fun out => s.move i out.1 out.2
  | .applyCommitted i =>
      (s.rafts i).applyCommitted.bind fun out => s.move i out.1 out.2
  | .applySnapshot i => (s.rafts i).applySnapshot.bind fun out => s.move i out.1 out.2
  | .requestVote k => s.stepRequestVote k
  | .sendRequestVote k => s.stepSendRequestVote k
  | .appendEntries k => s.stepAppendEntries k
  | .sendAppendEntries k => s.stepSendAppendEntries k
  | .installSnapshot k => s.stepInstallSnapshot k
  | .sendInstallSnapshot k => s.stepSendInstallSnapshot k
  | .restart i => some (s.restart i)

end Cluster

abbrev ClusterRun (n : Nat) (C D : Type) :=
  Lib.Run (Cluster.init n C D) Cluster.step

end BlockchainTutorial.Raft
