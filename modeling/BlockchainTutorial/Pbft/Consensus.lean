import Mathlib.Data.List.AList

namespace BlockchainTutorial.Pbft

/-! `consensus/pbft_impl.go`: the replica state of one consensus. `H` is the type of
the strings that `Hash` makes, and `digest` is a parameter. -/

structure RequestMsg where
  timestamp : Int
  clientID : String
  operation : String
  sequenceID : Int
  deriving DecidableEq, Repr

structure ReplyMsg where
  viewID : Int
  timestamp : Int
  clientID : String
  nodeID : String
  result : String
  deriving DecidableEq, Repr

structure PrePrepareMsg (H : Type) where
  viewID : Int
  sequenceID : Int
  digest : H
  requestMsg : Option RequestMsg
  deriving DecidableEq

/-- A number that is neither of the two constants can come off the wire. -/
inductive MsgType where
  | prepareMsg
  | commitMsg
  | unknown (code : Int)
  deriving DecidableEq, Repr

structure VoteMsg (H : Type) where
  viewID : Int
  sequenceID : Int
  digest : H
  nodeID : String
  msgType : MsgType
  deriving DecidableEq

inductive Stage where
  | idle
  | prePrepared
  | prepared
  | committed
  deriving DecidableEq, Repr

abbrev VoteMap (H : Type) := AList (fun _ : String => VoteMsg H)

structure MsgLogs (H : Type) where
  reqMsg : Option RequestMsg
  prepareMsgs : VoteMap H
  commitMsgs : VoteMap H

structure State (H : Type) where
  viewID : Int
  msgLogs : MsgLogs H
  lastSequenceID : Int
  currentStage : Stage

def f : Nat := 1

variable {H : Type}

def createState (viewID lastSequenceID : Int) : State H where
  viewID
  msgLogs := ⟨none, ∅, ∅⟩
  lastSequenceID
  currentStage := .idle

namespace State

def nextSequenceID (lastSequenceID : Int) : Nat → Int → Int
  | 0, sequenceID => sequenceID
  | count + 1, sequenceID =>
      if lastSequenceID ≥ sequenceID then
        nextSequenceID lastSequenceID count (sequenceID + 1)
      else sequenceID

/-- `now` is `time.Now().UnixNano()`. -/
def startConsensus (digest : Option RequestMsg → H) (state : State H) (request : RequestMsg)
    (now : Int) : State H × PrePrepareMsg H :=
  let sequenceID :=
    if state.lastSequenceID ≠ -1 then
      nextSequenceID state.lastSequenceID (state.lastSequenceID - now + 1).toNat now
    else now
  let request := { request with sequenceID }
  ({ state with
      msgLogs := { state.msgLogs with reqMsg := some request }
      currentStage := .prePrepared },
    ⟨state.viewID, sequenceID, digest (some request), some request⟩)

section Digest

variable [DecidableEq H] (digest : Option RequestMsg → H)

def verifyMsg (state : State H) (viewID sequenceID : Int) (digestGot : H) : Bool :=
  if state.viewID ≠ viewID then false
  else if state.lastSequenceID ≠ -1 ∧ state.lastSequenceID ≥ sequenceID then false
  else if digestGot ≠ digest state.msgLogs.reqMsg then false
  else true

variable {digest} in
theorem verifyMsg_eq_true {state : State H} {viewID sequenceID : Int} {digestGot : H} :
    state.verifyMsg digest viewID sequenceID digestGot = true ↔
      viewID = state.viewID ∧
        (state.lastSequenceID = -1 ∨ state.lastSequenceID < sequenceID) ∧
        digestGot = digest state.msgLogs.reqMsg := by
  unfold verifyMsg
  by_cases hview : state.viewID = viewID
  · by_cases hlast : state.lastSequenceID ≠ -1 ∧ state.lastSequenceID ≥ sequenceID
    · rw [if_neg (not_not.mpr hview), if_pos hlast]
      simp only [Bool.false_eq_true, false_iff]
      omega
    · rw [if_neg (not_not.mpr hview), if_neg hlast]
      have hnumber : state.lastSequenceID = -1 ∨ state.lastSequenceID < sequenceID := by
        omega
      simp [hview, hnumber]
  · simp [hview, Ne.symm hview]

/-- The vote still lacks its NodeID. -/
def prePrepare (state : State H) (prePrepareMsg : PrePrepareMsg H) :
    State H × Except String (VoteMsg H) :=
  let state := { state with
    msgLogs := { state.msgLogs with reqMsg := prePrepareMsg.requestMsg } }
  if !state.verifyMsg digest prePrepareMsg.viewID prePrepareMsg.sequenceID
      prePrepareMsg.digest then
    (state, .error "pre-prepare message is corrupted")
  else
    ({ state with currentStage := .prePrepared },
      .ok ⟨state.viewID, prePrepareMsg.sequenceID, prePrepareMsg.digest, "", .prepareMsg⟩)

def countPrepare (state : State H) (prepareMsg : VoteMsg H) : State H :=
  { state with msgLogs := { state.msgLogs with
      prepareMsgs := state.msgLogs.prepareMsgs.insert prepareMsg.nodeID prepareMsg } }

def countCommit (state : State H) (commitMsg : VoteMsg H) : State H :=
  { state with msgLogs := { state.msgLogs with
      commitMsgs := state.msgLogs.commitMsgs.insert commitMsg.nodeID commitMsg } }

def prepared (state : State H) : Bool :=
  if state.msgLogs.reqMsg = none then false
  else if state.msgLogs.prepareMsgs.keys.length < 2 * f then false
  else true

def committed (state : State H) : Bool :=
  if !state.prepared then false
  else if state.msgLogs.commitMsgs.keys.length < 2 * f then false
  else true

def prepare (state : State H) (prepareMsg : VoteMsg H) :
    State H × Except String (Option (VoteMsg H)) :=
  if !state.verifyMsg digest prepareMsg.viewID prepareMsg.sequenceID prepareMsg.digest then
    (state, .error "prepare message is corrupted")
  else
    let state := state.countPrepare prepareMsg
    if state.prepared then
      ({ state with currentStage := .prepared },
        .ok (some ⟨state.viewID, prepareMsg.sequenceID, prepareMsg.digest, "", .commitMsg⟩))
    else (state, .ok none)

def commit (state : State H) (commitMsg : VoteMsg H) :
    State H × Except String (Option (ReplyMsg × RequestMsg)) :=
  if !state.verifyMsg digest commitMsg.viewID commitMsg.sequenceID commitMsg.digest then
    (state, .error "commit message is corrupted")
  else
    let state := state.countCommit commitMsg
    match state.msgLogs.reqMsg with
    | some reqMsg =>
        if state.committed then
          ({ state with currentStage := .committed },
            .ok (some (⟨state.viewID, reqMsg.timestamp, reqMsg.clientID, "", "Executed"⟩,
              reqMsg)))
        else (state, .ok none)
    -- `committed` is false without a request
    | none => (state, .ok none)

end Digest

end State

end BlockchainTutorial.Pbft
