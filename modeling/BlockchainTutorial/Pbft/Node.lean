import BlockchainTutorial.Lib.Run
import BlockchainTutorial.Pbft.Consensus

namespace BlockchainTutorial.Pbft

/-! `network/node.go`: one node, with its dispatcher and its resolver. The two run
side by side. The resolver takes one message of its batch at a time; the dispatcher
reads no more than whether there is a state and its stage, so that it always routes
as it would before the message or after it. -/

variable {H : Type}

structure View where
  id : Int
  primary : String
  deriving DecidableEq, Repr

structure MsgBuffer (H : Type) where
  reqMsgs : List RequestMsg
  prePrepareMsgs : List (PrePrepareMsg H)
  prepareMsgs : List (VoteMsg H)
  commitMsgs : List (VoteMsg H)

inductive Msg (H : Type) where
  | request (msg : RequestMsg)
  | prePrepare (msg : PrePrepareMsg H)
  | vote (msg : VoteMsg H)

inductive Delivery (H : Type) where
  | requests (msgs : List RequestMsg)
  | prePrepares (msgs : List (PrePrepareMsg H))
  | votes (msgs : List (VoteMsg H))

inductive Resolving (H : Type) where
  | idle
  | requests (msgs : List RequestMsg)
  | prePrepares (msgs : List (PrePrepareMsg H))
  | prepares (msgs : List (VoteMsg H))
  | commits (msgs : List (VoteMsg H))

/-- What a node posts: to all others, or a reply to the primary. -/
inductive Posted (H : Type) where
  | prePrepare (msg : PrePrepareMsg H)
  | vote (msg : VoteMsg H)
  | reply (msg : ReplyMsg)

/-- `delivering` holds the batches that the dispatcher waits to hand over. -/
structure Node (H : Type) where
  nodeID : String
  nodeTable : List (String × String)
  view : View
  currentState : Option (State H)
  committedMsgs : List RequestMsg
  msgBuffer : MsgBuffer H
  delivering : List (Delivery H)
  resolving : Resolving H
  crashed : Bool

def nodeTable : List (String × String) :=
  [("Apple", "localhost:1111"), ("MS", "localhost:1112"), ("Google", "localhost:1113"),
    ("IBM", "localhost:1114")]

def newNode (nodeID : String) : Node H where
  nodeID
  nodeTable := nodeTable
  view := ⟨10000000000, "Apple"⟩
  currentState := none
  committedMsgs := []
  msgBuffer := ⟨[], [], [], []⟩
  delivering := []
  resolving := .idle
  crashed := false

namespace Node

/-! The dispatcher. -/

def stage (node : Node H) : Option Stage :=
  node.currentState.map (·.currentStage)

def routeMsg (node : Node H) : Msg H → Node H
  | .request msg =>
      if node.currentState.isNone then
        { node with
          delivering := [.requests (node.msgBuffer.reqMsgs ++ [msg])]
          msgBuffer := { node.msgBuffer with reqMsgs := [] } }
      else
        { node with msgBuffer := { node.msgBuffer with
            reqMsgs := node.msgBuffer.reqMsgs ++ [msg] } }
  | .prePrepare msg =>
      if node.currentState.isNone then
        { node with
          delivering := [.prePrepares (node.msgBuffer.prePrepareMsgs ++ [msg])]
          msgBuffer := { node.msgBuffer with prePrepareMsgs := [] } }
      else
        { node with msgBuffer := { node.msgBuffer with
            prePrepareMsgs := node.msgBuffer.prePrepareMsgs ++ [msg] } }
  | .vote msg =>
      match msg.msgType with
      | .prepareMsg =>
          if node.stage ≠ some .prePrepared then
            { node with msgBuffer := { node.msgBuffer with
                prepareMsgs := node.msgBuffer.prepareMsgs ++ [msg] } }
          else
            { node with
              delivering := [.votes (node.msgBuffer.prepareMsgs ++ [msg])]
              msgBuffer := { node.msgBuffer with prepareMsgs := [] } }
      | .commitMsg =>
          if node.stage ≠ some .prepared then
            { node with msgBuffer := { node.msgBuffer with
                commitMsgs := node.msgBuffer.commitMsgs ++ [msg] } }
          else
            { node with
              delivering := [.votes (node.msgBuffer.commitMsgs ++ [msg])]
              msgBuffer := { node.msgBuffer with commitMsgs := [] } }
      | .unknown _ => node

/-- The buffers are not emptied. -/
def routeMsgWhenAlarmed (node : Node H) : Node H :=
  match node.stage with
  | none =>
      { node with delivering :=
          (if node.msgBuffer.reqMsgs ≠ [] then
            [.requests node.msgBuffer.reqMsgs] else []) ++
          if node.msgBuffer.prePrepareMsgs ≠ [] then
            [.prePrepares node.msgBuffer.prePrepareMsgs] else [] }
  | some .prePrepared =>
      if node.msgBuffer.prepareMsgs ≠ [] then
        { node with delivering := [.votes node.msgBuffer.prepareMsgs] }
      else node
  | some .prepared =>
      if node.msgBuffer.commitMsgs ≠ [] then
        { node with delivering := [.votes node.msgBuffer.commitMsgs] }
      else node
  | some _ => node

/-! The resolver. -/

def crash (node : Node H) : Node H :=
  { node with crashed := true }

def lastSequenceID (node : Node H) : Int :=
  match node.committedMsgs.getLast? with
  | none => -1
  | some msg => msg.sequenceID

def createStateForNewConsensus (node : Node H) : Except String (Node H) :=
  if node.currentState.isSome then .error "another consensus is ongoing"
  else .ok { node with currentState := some (createState node.view.id node.lastSequenceID) }

section Digest

variable [DecidableEq H] (digest : Option RequestMsg → H)

def getReq (node : Node H) (reqMsg : RequestMsg) (now : Int) : Node H × List (Posted H) :=
  match node.createStateForNewConsensus with
  | .error _ => (node, [])
  | .ok node =>
      match node.currentState with
      | none => (node.crash, [])
      | some state =>
          let started := state.startConsensus digest reqMsg now
          ({ node with currentState := some started.1 }, [.prePrepare started.2])

/-- `LogMsg` reads the client of the request, and panics without one. -/
def getPrePrepare (node : Node H) (prePrepareMsg : PrePrepareMsg H) :
    Node H × List (Posted H) :=
  if prePrepareMsg.requestMsg = none then (node.crash, [])
  else
    match node.createStateForNewConsensus with
    | .error _ => (node, [])
    | .ok node =>
        match node.currentState with
        | none => (node.crash, [])
        | some state =>
            let accepted := state.prePrepare digest prePrepareMsg
            let node := { node with currentState := some accepted.1 }
            match accepted.2 with
            | .error _ => (node, [])
            | .ok prepareMsg =>
                (node, [.vote { prepareMsg with nodeID := node.nodeID }])

def getPrepare (node : Node H) (prepareMsg : VoteMsg H) : Node H × List (Posted H) :=
  match node.currentState with
  | none => (node.crash, [])
  | some state =>
      let counted := state.prepare digest prepareMsg
      let node := { node with currentState := some counted.1 }
      match counted.2 with
      | .ok (some commitMsg) => (node, [.vote { commitMsg with nodeID := node.nodeID }])
      | _ => (node, [])

def getCommit (node : Node H) (commitMsg : VoteMsg H) : Node H × List (Posted H) :=
  match node.currentState with
  | none => (node.crash, [])
  | some state =>
      let counted := state.commit digest commitMsg
      let node := { node with currentState := some counted.1 }
      match counted.2 with
      | .ok (some (replyMsg, committedMsg)) =>
          ({ node with committedMsgs := node.committedMsgs ++ [committedMsg] },
            [.reply { replyMsg with nodeID := node.nodeID }])
      | _ => (node, [])

/-- The type of a batch of votes is that of its first. -/
def receive : Delivery H → Resolving H
  | .requests msgs => .requests msgs
  | .prePrepares msgs => .prePrepares msgs
  | .votes [] => .idle
  | .votes (msg :: msgs) =>
      match msg.msgType with
      | .prepareMsg => .prepares (msg :: msgs)
      | .commitMsg => .commits (msg :: msgs)
      | .unknown _ => .idle

def resolveMsg (node : Node H) (now : Int) : Option (Node H × List (Posted H)) :=
  match node.resolving with
  | .idle => none
  | .requests [] => some ({ node with resolving := .idle }, [])
  | .requests (msg :: msgs) =>
      some ({ node with resolving := .requests msgs }.getReq digest msg now)
  | .prePrepares [] => some ({ node with resolving := .idle }, [])
  | .prePrepares (msg :: msgs) =>
      some ({ node with resolving := .prePrepares msgs }.getPrePrepare digest msg)
  | .prepares [] => some ({ node with resolving := .idle }, [])
  | .prepares (msg :: msgs) =>
      some ({ node with resolving := .prepares msgs }.getPrepare digest msg)
  | .commits [] => some ({ node with resolving := .idle }, [])
  | .commits (msg :: msgs) =>
      some ({ node with resolving := .commits msgs }.getCommit digest msg)

end Digest

end Node

/-- The steps of a node: the dispatcher takes a message or an alarm when it is not
waiting to hand a batch over, hands one over when the resolver is idle, and the
resolver looks at its next message. -/
inductive NodeAction (H : Type) where
  | entrance (msg : Msg H)
  | alarm
  | delivery
  | resolve (now : Int)

instance : Inhabited (NodeAction H) := ⟨.alarm⟩

namespace Node

variable [DecidableEq H] (digest : Option RequestMsg → H)

def act (node : Node H) : NodeAction H → Option (Node H × List (Posted H))
  | .entrance msg =>
      match node.delivering with
      | [] => some (node.routeMsg msg, [])
      | _ :: _ => none
  | .alarm =>
      match node.delivering with
      | [] => some (node.routeMsgWhenAlarmed, [])
      | _ :: _ => none
  | .delivery =>
      match node.delivering, node.resolving with
      | batch :: batches, .idle =>
          some ({ node with delivering := batches, resolving := receive batch }, [])
      | _, _ => none
  | .resolve now => node.resolveMsg digest now

def step (node : Node H) (a : NodeAction H) : Option (Node H) :=
  if node.crashed then none else (node.act digest a).map (·.1)

end Node

abbrev NodeRun (digest : Option RequestMsg → H) [DecidableEq H] (nodeID : String) :=
  Lib.Run (newNode nodeID : Node H) (Node.step digest)

end BlockchainTutorial.Pbft
