import BlockchainTutorial.Labrpc.Network
import BlockchainTutorial.Raft.Cluster

namespace BlockchainTutorial.Raft

open Labrpc

/-! The servers of `raft.go` on the network of `labrpc.go`, run by `config.go`. A
server that was crashed is not gone: its goroutines go on with the old persister
and the old client ends. -/

/-- `svcMeth` and the arguments of a `Call`. -/
inductive CallArgs (n : Nat) (C D : Type) where
  | requestVote (args : RequestVoteArgs n)
  | appendEntries (args : AppendEntriesArgs n C)
  | installSnapshot (args : InstallSnapshotArgs n D)

inductive CallReply where
  | requestVote (reply : RequestVoteReply)
  | appendEntries (reply : AppendEntriesReply)
  | installSnapshot (reply : InstallSnapshotReply)

/-- A `*Raft` made by `start1`, with the `labrpc.Server` around it. It is known by
its place in the list of all that were ever made. -/
structure Instance (n : Nat) (C D Endname : Type) where
  me : Fin n
  peers : Fin n → Endname
  raft : Raft n C D
  count : Nat

structure Request (n : Nat) (C D Endname : Type) where
  caller : Nat
  server : Fin n
  msg : ReqMsg Endname (Fin n) Nat (CallArgs n C D) CallReply
  finished : Bool

/-- `cfg.saved[i]`: the persister that an instance writes to, or one that nobody
writes to. No persister at all is read as an empty one. -/
inductive SavedPersister (n : Nat) (C D : Type) where
  | shared (server : Nat)
  | own (persister : Persister n C D)

/-- Where the goroutine of the test stands in `connect`, `disconnect`, `crash1` or
`start1`. A `crash1` with names is the first line of a `start1`. -/
inductive Tester (n : Nat) (Endname : Type) where
  | idle
  | enabling (pending : List (Endname × Bool))
  | crashing (i : Fin n) (pending : List (Endname × Bool)) (names : Option (Fin n → Endname))
  | copying (i : Fin n) (names : Option (Fin n → Endname))
  | makingEnds (i : Fin n) (names : Fin n → Endname)
  | making (i : Fin n) (names : Fin n → Endname)
  | adding (i : Fin n) (server : Nat)

structure Harness (n : Nat) (C D Endname : Type) where
  net : Network Endname (Fin n) Nat
  instances : List (Instance n C D Endname)
  requests : List (Request n C D Endname)
  connected : Fin n → Bool
  saved : Fin n → SavedPersister n C D
  rafts : Fin n → Option Nat
  endnames : Fin n → Option (Fin n → Endname)
  tester : Tester n Endname
  delivered : List (Fin n × ApplyMsg C D)

inductive ConfigCall (n : Nat) (Endname : Type) where
  | connect (i : Fin n)
  | disconnect (i : Fin n)
  | crash1 (i : Fin n)
  | start1 (i : Fin n) (names : Fin n → Endname)

/-- A step of one of the goroutines of an instance that waits for no reply, or a
`Start` by the test. -/
inductive LocalStep (C : Type) where
  | start (command : C)
  | loop (choice : LoopChoice)
  | boatcastRequestVote (job : Nat)
  | applyCommitted
  | applySnapshot

inductive HarnessAction (n : Nat) (C Endname : Type) where
  | setunreliable (unrel : Bool)
  | config (call : ConfigCall n Endname)
  | tester
  | server (server : Nat) (local_ : LocalStep C)
  | processReq (request : Nat) (choice : Choice)
  | count (request : Nat)
  | handle (request : Nat)
  | finish (request : Nat)

variable {n : Nat} {C D Endname : Type}

/-- `Service.dispatch`. Nothing where the handler panics, which ends the process. -/
def serviceDispatch (rf : Raft n C D) :
    CallArgs n C D → Option (Raft n C D × CallReply × List (ApplyMsg C D))
  | .requestVote args =>
      (rf.requestVote args).2.map fun reply => ((rf.requestVote args).1, .requestVote reply, [])
  | .appendEntries args =>
      (rf.appendEntries args).2.map fun reply =>
        ((rf.appendEntries args).1, .appendEntries reply, [])
  | .installSnapshot args =>
      let out := rf.installSnapshot args
      some (out.1, .installSnapshot out.2.1, out.2.2)

/-- What the sender of a call does with its reply. -/
def afterCall (rf : Raft n C D) (server : Fin n) :
    CallArgs n C D → CallReply → Option (Raft n C D)
  | .requestVote args, .requestVote reply => some (rf.sendRequestVote args reply)
  | .appendEntries args, .appendEntries reply => some (rf.sendAppendEntries server args reply)
  | .installSnapshot args, .installSnapshot reply =>
      some (rf.sendInstallSnapshot server args reply)
  | _, _ => none

def LocalStep.take (me : Fin n) (rf : Raft n C D) :
    LocalStep C → Option (Raft n C D × Effects n C D)
  | .start command => some (rf.start command)
  | .loop choice => rf.loopStep me choice
  | .boatcastRequestVote job => rf.boatcastRequestVote me job
  | .applyCommitted => rf.applyCommitted
  | .applySnapshot => rf.applySnapshot

/-- The calls that the goroutines of one step make. -/
def Effects.calls (eff : Effects n C D) : List (Fin n × CallArgs n C D) :=
  eff.requestVotes.map (Prod.map id CallArgs.requestVote) ++
    eff.appendEntries.map (Prod.map id CallArgs.appendEntries) ++
    eff.installSnapshots.map (Prod.map id CallArgs.installSnapshot)

/-- The dispatching goroutine of a request moves on. -/
def Request.dispatched (req : Request n C D Endname) (dispatch : Dispatch Nat CallReply) :
    Request n C D Endname :=
  { req with msg := { req.msg with dispatch } }

def Instance.request (inst : Instance n C D Endname) (caller : Nat)
    (call : Fin n × CallArgs n C D) : Request n C D Endname :=
  ⟨caller, call.1, .call (inst.peers call.1) call.2, false⟩

namespace Harness

def init (n : Nat) (C D Endname : Type) : Harness n C D Endname where
  net := .makeNetwork
  instances := []
  requests := []
  connected := fun _ => false
  saved := fun _ => .own ⟨none, none⟩
  rafts := fun _ => none
  endnames := fun _ => none
  tester := .idle
  delivered := []

def raftOf (s : Harness n C D Endname) (server : Nat) : Option (Raft n C D) :=
  s.instances[server]?.map (·.raft)

/-- What `cfg.saved[i]` holds. -/
def persisterOf (s : Harness n C D Endname) (i : Fin n) : Option (Persister n C D) :=
  match s.saved i with
  | .shared server => (s.raftOf server).map (·.persister)
  | .own persister => some persister

/-- The `Enable` calls of `connect(i)`; it has set `connected[i]` before. -/
def connectEnds (s : Harness n C D Endname) (i : Fin n) : List (Endname × Bool) :=
  let connected := Function.update s.connected i true
  let outgoing := (List.finRange n).filterMap fun j =>
    if connected j then (s.endnames i).map fun names => (names j, true) else none
  let incoming := (List.finRange n).filterMap fun j =>
    if connected j then (s.endnames j).map fun names => (names i, true) else none
  outgoing ++ incoming

/-- The `Enable` calls of `disconnect(i)`. -/
def disconnectEnds (s : Harness n C D Endname) (i : Fin n) : List (Endname × Bool) :=
  let outgoing := (List.finRange n).filterMap fun j =>
    (s.endnames i).map fun names => (names j, false)
  let incoming := (List.finRange n).filterMap fun j =>
    (s.endnames j).map fun names => (names i, false)
  outgoing ++ incoming

/-- The test calls a function of `config.go`. A server that is down is started
before it is connected. -/
def stepConfig (s : Harness n C D Endname) : ConfigCall n Endname → Option (Harness n C D Endname)
  | .connect i =>
      if (s.rafts i).isSome then
        some { s with
          connected := Function.update s.connected i true
          tester := .enabling (s.connectEnds i) }
      else none
  | .disconnect i =>
      some { s with
        connected := Function.update s.connected i false
        tester := .enabling (s.disconnectEnds i) }
  | .crash1 i =>
      some { s with
        connected := Function.update s.connected i false
        tester := .crashing i (s.disconnectEnds i) none }
  | .start1 i names =>
      some { s with
        connected := Function.update s.connected i false
        tester := .crashing i (s.disconnectEnds i) (some names) }

variable [DecidableEq Endname]

/-- `MakeEnd` and `Connect` for each peer. -/
def makeEnds (net : Network Endname (Fin n) Nat) (names : Fin n → Endname) :
    List (Fin n) → Option (Network Endname (Fin n) Nat)
  | [] => some net
  | j :: peers =>
      (net.makeEnd (names j)).bind fun net => makeEnds (net.connect (names j) j) names peers

/-- The next step of the function that the test is in. -/
def stepTester (s : Harness n C D Endname) : Option (Harness n C D Endname) :=
  match s.tester with
  | .idle => none
  | .enabling [] => some { s with tester := .idle }
  | .enabling ((endname, enabled) :: pending) =>
      some { s with
        net := s.net.enable endname enabled
        tester := .enabling pending }
  | .crashing i ((endname, enabled) :: pending) names =>
      some { s with
        net := s.net.enable endname enabled
        tester := .crashing i pending names }
  | .crashing i [] names =>
      some { s with
        net := s.net.deleteServer i
        tester := .copying i names }
  | .copying i names =>
      -- the copy, which nobody else knows, is read into a new persister at once
      (s.persisterOf i).map fun persister => { s with
        saved := Function.update s.saved i (.own ⟨persister.raftstate, none⟩)
        rafts := Function.update s.rafts i none
        tester := match names with
          | none => .idle
          | some names => .makingEnds i names }
  | .makingEnds i names =>
      -- nobody sends from an end before the server has it
      (makeEnds s.net names (List.finRange n)).map fun net => { s with
        net
        endnames := Function.update s.endnames i (some names)
        tester := .making i names }
  | .making i names =>
      (s.persisterOf i).map fun persister => { s with
        instances := s.instances ++ [⟨i, names, make persister, 0⟩]
        saved := Function.update s.saved i (.shared s.instances.length)
        rafts := Function.update s.rafts i (some s.instances.length)
        tester := .adding i s.instances.length }
  | .adding i server =>
      some { s with
        net := s.net.addServer i server
        tester := .idle }

def setRequest (s : Harness n C D Endname) (k : Nat) (req : Request n C D Endname) :
    Harness n C D Endname :=
  { s with requests := s.requests.set k req }

/-- Instance number `server` has moved to `rf`. A panic would end the process, and
a send on a full channel blocks: neither is a step. -/
def moveInstance (s : Harness n C D Endname) (server : Nat) (inst : Instance n C D Endname)
    (rf : Raft n C D) (eff : Effects n C D) : Option (Harness n C D Endname) :=
  if rf.withinChans && !eff.panicked then
    some { s with
      instances := s.instances.set server { inst with raft := rf }
      requests := s.requests ++ eff.calls.map (inst.request server)
      delivered := s.delivered ++ eff.applied.map (inst.me, ·) }
  else none

def stepServer (s : Harness n C D Endname) (server : Nat) (local_ : LocalStep C) :
    Option (Harness n C D Endname) :=
  match s.instances[server]? with
  | none => none
  | some inst =>
      (local_.take inst.me inst.raft).bind fun out => s.moveInstance server inst out.1 out.2

def stepProcessReq (s : Harness n C D Endname) (k : Nat) (choice : Choice) :
    Option (Harness n C D Endname) :=
  match s.requests[k]? with
  | none => none
  | some req =>
      (req.msg.step s.net choice).map fun msg => s.setRequest k { req with msg }

/-- `Server.dispatch` up to the call of the service: `rs.count += 1`. -/
def stepCount (s : Harness n C D Endname) (k : Nat) : Option (Harness n C D Endname) :=
  match s.requests[k]? with
  | none => none
  | some req =>
      match req.msg.dispatch with
      | .started server =>
          s.instances[server]?.map fun inst =>
            { s.setRequest k (req.dispatched (.counted server)) with
              instances := s.instances.set server { inst with count := inst.count + 1 } }
      | _ => none

def stepHandle (s : Harness n C D Endname) (k : Nat) : Option (Harness n C D Endname) :=
  match s.requests[k]? with
  | none => none
  | some req =>
      match req.msg.dispatch with
      | .counted server =>
          s.instances[server]?.bind fun inst =>
            (serviceDispatch inst.raft req.msg.args).bind fun out =>
              (s.setRequest k (req.dispatched (.sending server out.2.1))).moveInstance
                server inst out.1 { applied := out.2.2 }
      | _ => none

/-- What follows `Call` in the goroutine that made it. -/
def stepFinish (s : Harness n C D Endname) (k : Nat) : Option (Harness n C D Endname) :=
  match s.requests[k]? with
  | none => none
  | some req =>
      match req.msg.returned with
      | some (some reply) =>
          if req.finished then none
          else
            s.instances[req.caller]?.bind fun inst =>
              (afterCall inst.raft req.server req.msg.args reply).bind fun rf =>
                (s.setRequest k { req with finished := true }).moveInstance
                  req.caller inst rf {}
      | _ => none

def step (s : Harness n C D Endname) : HarnessAction n C Endname → Option (Harness n C D Endname)
  | .setunreliable unrel => some { s with net := s.net.setReliable !unrel }
  | .config call =>
      match s.tester with
      | .idle => s.stepConfig call
      | _ => none
  | .tester => s.stepTester
  | .server server local_ => s.stepServer server local_
  | .processReq k choice => s.stepProcessReq k choice
  | .count k => s.stepCount k
  | .handle k => s.stepHandle k
  | .finish k => s.stepFinish k

end Harness

abbrev HarnessRun (n : Nat) (C D Endname : Type) [DecidableEq Endname] :=
  Lib.Run (Harness.init n C D Endname) Harness.step

end BlockchainTutorial.Raft
