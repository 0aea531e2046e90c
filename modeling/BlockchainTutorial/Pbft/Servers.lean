import BlockchainTutorial.Lib.Rings
import BlockchainTutorial.Pbft.Network

namespace BlockchainTutorial.Pbft

/-! `network/proxy_server.go`: the four servers and the posts between them. A post
returns when the dispatcher of the receiver has taken the message, and `Broadcast`
makes one post after the other, in the order in which Go walks over the table. -/

variable {H : Type}

/-- `entrance` holds the message that a dispatcher has received and not yet routed,
`posting` the message that a resolver broadcasts, with the nodes still to be posted to. -/
structure Servers (H : Type) where
  request : Option RequestMsg
  nodes : String → Node H
  entrance : String → Option (Msg H)
  posting : String → Option (Msg H × List String)

/-- What a goroutine does next. `send` is the first open post of a broadcast, taken by
the dispatcher of its receiver. -/
inductive ServersAction where
  | getReq
  | send (nodeID : String)
  | routeMsg (nodeID : String)
  | alarm (nodeID : String)
  | deliver (nodeID : String)
  | resolve (nodeID : String) (now : Int) (order : List String)

instance : Inhabited ServersAction := ⟨.getReq⟩

def primary : String := "Apple"

def otherNodes (nodeID : String) : List String := nodeIDs.filter (· ≠ nodeID)

/-- A reply is posted to a handler that no goroutine keeps waiting. -/
def broadcastOf : List (Posted H) → Option (Msg H)
  | .prePrepare msg :: _ => some (.prePrepare msg)
  | .vote msg :: _ => some (.vote msg)
  | _ => none

namespace Servers

def start (request : RequestMsg) : Servers H where
  request := some request
  nodes := newNode
  entrance := fun _ => none
  posting := fun _ => none

/-- The dispatcher waits for a message. -/
def Free (servers : Servers H) (nodeID : String) : Prop :=
  servers.entrance nodeID = none ∧ (servers.nodes nodeID).delivering = []

instance (servers : Servers H) (nodeID : String) : Decidable (servers.Free nodeID) :=
  decidable_of_iff
    ((servers.entrance nodeID).isNone ∧ (servers.nodes nodeID).delivering.isEmpty)
    (by rw [Free, Option.isNone_iff_eq_none, List.isEmpty_iff])

def receive (servers : Servers H) (nodeID : String) (msg : Msg H) : Servers H :=
  { servers with entrance := Function.update servers.entrance nodeID (some msg) }

section Digest

variable [DecidableEq H] (digest : Option RequestMsg → H)

def act (servers : Servers H) (nodeID : String) (a : NodeAction H) :
    Option (Node H × List (Posted H)) :=
  if nodeID ∈ nodeIDs ∧ (servers.nodes nodeID).crashed = false then
    (servers.nodes nodeID).act digest a
  else none

def step (servers : Servers H) : ServersAction → Option (Servers H)
  | .getReq =>
      match servers.request with
      | some request =>
          if servers.Free primary then
            some ({ servers with request := none }.receive primary (.request request))
          else none
      | none => none
  | .send nodeID =>
      match servers.posting nodeID with
      | some (msg, target :: targets) =>
          if servers.Free target then
            some ({ servers with
              posting := Function.update servers.posting nodeID
                (if targets = [] then none else some (msg, targets)) }.receive target msg)
          else none
      | _ => none
  | .routeMsg nodeID =>
      match servers.entrance nodeID with
      | some msg => (servers.act digest nodeID (.entrance msg)).map fun acted =>
          { servers with
            nodes := Function.update servers.nodes nodeID acted.1
            entrance := Function.update servers.entrance nodeID none }
      | none => none
  | .alarm nodeID =>
      match servers.entrance nodeID with
      | none => (servers.act digest nodeID .alarm).map fun acted =>
          { servers with nodes := Function.update servers.nodes nodeID acted.1 }
      | some _ => none
  | .deliver nodeID =>
      match servers.posting nodeID with
      | none => (servers.act digest nodeID .delivery).map fun acted =>
          { servers with nodes := Function.update servers.nodes nodeID acted.1 }
      | some _ => none
  | .resolve nodeID now order =>
      match servers.posting nodeID with
      | none =>
          if order.Perm (otherNodes nodeID) then
            (servers.act digest nodeID (.resolve now)).map fun acted =>
              { servers with
                nodes := Function.update servers.nodes nodeID acted.1
                posting := Function.update servers.posting nodeID
                  ((broadcastOf acted.2).map fun msg => (msg, order)) }
          else none
      | some _ => none

end Digest

def AllCommitted (servers : Servers H) : Prop :=
  ∀ nodeID ∈ nodeIDs, (servers.nodes nodeID).stage = some .committed

end Servers

/-- An alarm hands a message over that changes the state of the node. -/
def Node.Awaited (node : Node H) : Prop :=
  match node.currentState with
  | none => node.msgBuffer.reqMsgs ≠ [] ∨ node.msgBuffer.prePrepareMsgs ≠ []
  | some state =>
      match state.currentStage with
      | .prePrepared =>
          ∃ msg ∈ node.msgBuffer.prepareMsgs, msg.nodeID ∉ state.msgLogs.prepareMsgs.keys
      | .prepared =>
          ∃ msg ∈ node.msgBuffer.commitMsgs, msg.nodeID ∉ state.msgLogs.commitMsgs.keys
      | _ => False

namespace Servers

def Useful (servers : Servers H) : ServersAction → Prop
  | .alarm nodeID => (servers.nodes nodeID).Awaited
  | _ => True

section Digest

variable [DecidableEq H] (digest : Option RequestMsg → H)

def Live (servers : Servers H) : Prop :=
  servers.AllCommitted ∨
    ∃ a, servers.Useful a ∧ (servers.step digest a).isSome

end Digest

/-- The resolver of one node posts to another, whose dispatcher has a batch to hand
over while its resolver posts as well. -/
def Waits (servers : Servers H) (nodeID target : String) : Prop :=
  ∃ msg targets, servers.posting nodeID = some (msg, target :: targets) ∧
    (servers.nodes target).delivering ≠ [] ∧ servers.posting target ≠ none

/-- Nodes that wait for each other in a ring. -/
def Ring (servers : Servers H) : Prop :=
  ∃ nodeID, Lib.OnRing servers.Waits nodeID

end Servers

abbrev ServersRun (digest : Option RequestMsg → H) [DecidableEq H] (request : RequestMsg) :=
  Lib.Run (Servers.start request : Servers H) (Servers.step digest)

end BlockchainTutorial.Pbft
