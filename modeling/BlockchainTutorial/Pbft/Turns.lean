import BlockchainTutorial.Pbft.Node

namespace BlockchainTutorial.Pbft

variable {H : Type}

/-! What one step of a node can do. -/

namespace State

variable {state : State H}

theorem length_keys_insert (votes : VoteMap H) (nodeID : String) (msg : VoteMsg H) :
    votes.keys.length ≤ (votes.insert nodeID msg).keys.length := by
  rw [AList.keys_insert, List.length_cons, List.length_erase]
  split <;> omega

@[simp] theorem countPrepare_reqMsg (state : State H) (msg : VoteMsg H) :
    (state.countPrepare msg).msgLogs.reqMsg = state.msgLogs.reqMsg := rfl

@[simp] theorem countCommit_reqMsg (state : State H) (msg : VoteMsg H) :
    (state.countCommit msg).msgLogs.reqMsg = state.msgLogs.reqMsg := rfl

theorem committed_eq_true (state : State H) :
    state.committed = true ↔ state.msgLogs.reqMsg ≠ none ∧
      2 * f ≤ state.msgLogs.prepareMsgs.keys.length ∧
      2 * f ≤ state.msgLogs.commitMsgs.keys.length := by
  unfold committed prepared
  by_cases hreq : state.msgLogs.reqMsg = none
  · simp [hreq]
  · by_cases hprepare : state.msgLogs.prepareMsgs.keys.length < 2 * f
    · have hfew : ¬ 2 * f ≤ state.msgLogs.prepareMsgs.keys.length := by omega
      simp only [if_neg hreq, if_pos hprepare, hfew, false_and, and_false]
      simp
    · by_cases hcommit : state.msgLogs.commitMsgs.keys.length < 2 * f
      · simp [hreq, hprepare, hcommit]
      · simp [hreq, hprepare, hcommit, Nat.le_of_not_lt hprepare, Nat.le_of_not_lt hcommit]

section Digest

variable [DecidableEq H] {digest : Option RequestMsg → H}

theorem digest_of_verifyMsg {viewID sequenceID : Int} {digestGot : H}
    (h : state.verifyMsg digest viewID sequenceID digestGot = true) :
    digestGot = digest state.msgLogs.reqMsg := by
  unfold verifyMsg at h
  split at h
  · cases h
  · split at h
    · cases h
    · split at h
      · cases h
      · rename_i hdigest
        exact not_not.mp hdigest

variable (digest) in
/-- `Prepare` rejects the vote, or counts it, or counts it and votes in turn. -/
theorem prepare_cases (state : State H) (msg : VoteMsg H) :
    (state.verifyMsg digest msg.viewID msg.sequenceID msg.digest = false ∧
      state.prepare digest msg = (state, .error "prepare message is corrupted")) ∨
    (state.verifyMsg digest msg.viewID msg.sequenceID msg.digest = true ∧
      (state.prepare digest msg = (state.countPrepare msg, .ok none) ∨
        (state.countPrepare msg).prepared = true ∧
        state.prepare digest msg =
          ({ state.countPrepare msg with currentStage := .prepared },
            .ok (some ⟨state.viewID, msg.sequenceID, msg.digest, "", .commitMsg⟩)))) := by
  unfold prepare
  cases hverify : state.verifyMsg digest msg.viewID msg.sequenceID msg.digest with
  | false => exact .inl ⟨rfl, rfl⟩
  | true =>
      refine .inr ⟨rfl, ?_⟩
      cases hprepared : (state.countPrepare msg).prepared with
      | false => exact .inl (by simp [hprepared])
      | true => exact .inr ⟨rfl, by simp [hprepared]; rfl⟩

variable (digest) in
/-- `Commit` rejects the vote, or counts it, or counts it and reports the request. -/
theorem commit_cases (state : State H) (msg : VoteMsg H) :
    (state.verifyMsg digest msg.viewID msg.sequenceID msg.digest = false ∧
      state.commit digest msg = (state, .error "commit message is corrupted")) ∨
    (state.verifyMsg digest msg.viewID msg.sequenceID msg.digest = true ∧
      ((state.countCommit msg).committed = false ∧
        state.commit digest msg = (state.countCommit msg, .ok none) ∨
      ∃ reqMsg reply, (state.countCommit msg).committed = true ∧
        state.msgLogs.reqMsg = some reqMsg ∧
        state.commit digest msg =
          ({ state.countCommit msg with currentStage := .committed },
            .ok (some (reply, reqMsg))))) := by
  unfold commit
  cases hverify : state.verifyMsg digest msg.viewID msg.sequenceID msg.digest with
  | false => exact .inl ⟨rfl, rfl⟩
  | true =>
      refine .inr ⟨rfl, ?_⟩
      cases hreq : state.msgLogs.reqMsg with
      | none =>
          refine .inl ⟨?_, by simp [hreq]⟩
          rw [Bool.eq_false_iff, Ne, committed_eq_true]
          simp [hreq]
      | some reqMsg =>
          cases hcommitted : (state.countCommit msg).committed with
          | false => exact .inl ⟨rfl, by simp [hreq, hcommitted]⟩
          | true => exact .inr ⟨reqMsg, _, rfl, rfl, by simp [hreq, hcommitted]; rfl⟩

end Digest

end State

def Resolving.next : Resolving H → Resolving H
  | .requests (_ :: msgs) => .requests msgs
  | .prePrepares (_ :: msgs) => .prePrepares msgs
  | .prepares (_ :: msgs) => .prepares msgs
  | .commits (_ :: msgs) => .commits msgs
  | _ => .idle

namespace Node

variable {node node' : Node H} {posted : List (Posted H)}

theorem routeMsg_eq (node : Node H) (msg : Msg H) : ∃ buffer batches,
    node.routeMsg msg = { node with msgBuffer := buffer, delivering := batches } := by
  unfold routeMsg
  cases msg with
  | request msg => dsimp only; split <;> exact ⟨_, _, rfl⟩
  | prePrepare msg => dsimp only; split <;> exact ⟨_, _, rfl⟩
  | vote msg =>
      cases htype : msg.msgType with
      | prepareMsg => simp only [htype]; split <;> exact ⟨_, _, rfl⟩
      | commitMsg => simp only [htype]; split <;> exact ⟨_, _, rfl⟩
      | unknown code => simp only [htype]; exact ⟨_, _, rfl⟩

theorem routeMsgWhenAlarmed_eq (node : Node H) : ∃ batches,
    node.routeMsgWhenAlarmed = { node with delivering := batches } := by
  unfold routeMsgWhenAlarmed
  split
  · exact ⟨_, rfl⟩
  · split <;> exact ⟨_, rfl⟩
  · split <;> exact ⟨_, rfl⟩
  · exact ⟨_, rfl⟩

section Digest

variable [DecidableEq H] {digest : Option RequestMsg → H}

inductive Turn (digest : Option RequestMsg → H) (node : Node H) :
    Node H → List (Posted H) → Prop
  | kept : Turn digest node { node with resolving := node.resolving.next } []
  | crashed :
      Turn digest node { node with resolving := node.resolving.next, crashed := true } []
  | started (request : RequestMsg) (now : Int) (hstate : node.currentState = none) :
      Turn digest node
        { node with
          resolving := node.resolving.next
          currentState := some ((createState node.view.id node.lastSequenceID).startConsensus
            digest request now).1 }
        [.prePrepare ((createState node.view.id node.lastSequenceID).startConsensus
          digest request now).2]
  | refused (request : RequestMsg) (hstate : node.currentState = none) :
      Turn digest node
        { node with
          resolving := node.resolving.next
          currentState := some ⟨node.view.id, ⟨some request, ∅, ∅⟩, node.lastSequenceID,
            .idle⟩ } []
  | accepted (msg : PrePrepareMsg H) (request : RequestMsg)
      (hstate : node.currentState = none) (hdigest : msg.digest = digest (some request)) :
      Turn digest node
        { node with
          resolving := node.resolving.next
          currentState := some ⟨node.view.id, ⟨some request, ∅, ∅⟩, node.lastSequenceID,
            .prePrepared⟩ }
        [.vote ⟨node.view.id, msg.sequenceID, msg.digest, node.nodeID, .prepareMsg⟩]
  | countedPrepare (state : State H) (msg : VoteMsg H) (msgs : List (VoteMsg H))
      (hresolving : node.resolving = .prepares (msg :: msgs))
      (hstate : node.currentState = some state)
      (hdigest : msg.digest = digest state.msgLogs.reqMsg) :
      Turn digest node
        { node with
          resolving := node.resolving.next
          currentState := some (state.countPrepare msg) } []
  | prepared (state : State H) (msg : VoteMsg H) (msgs : List (VoteMsg H))
      (hresolving : node.resolving = .prepares (msg :: msgs))
      (hstate : node.currentState = some state)
      (hdigest : msg.digest = digest state.msgLogs.reqMsg) :
      Turn digest node
        { node with
          resolving := node.resolving.next
          currentState := some { state.countPrepare msg with currentStage := .prepared } }
        [.vote ⟨state.viewID, msg.sequenceID, msg.digest, node.nodeID, .commitMsg⟩]
  | countedCommit (state : State H) (msg : VoteMsg H) (msgs : List (VoteMsg H))
      (hresolving : node.resolving = .commits (msg :: msgs))
      (hstate : node.currentState = some state)
      (hcommitted : (state.countCommit msg).committed = false) :
      Turn digest node
        { node with
          resolving := node.resolving.next
          currentState := some (state.countCommit msg) } []
  | committed (state : State H) (msg : VoteMsg H) (msgs : List (VoteMsg H))
      (reqMsg : RequestMsg) (reply : ReplyMsg)
      (hresolving : node.resolving = .commits (msg :: msgs))
      (hstate : node.currentState = some state)
      (hverify : state.verifyMsg digest msg.viewID msg.sequenceID msg.digest = true)
      (hcommitted : (state.countCommit msg).committed = true)
      (hrequest : state.msgLogs.reqMsg = some reqMsg) :
      Turn digest node
        { node with
          resolving := node.resolving.next
          currentState := some { state.countCommit msg with currentStage := .committed }
          committedMsgs := node.committedMsgs ++ [reqMsg] }
        [.reply reply]

variable (digest) in
theorem getReq_turn (now : Int) {msg : RequestMsg} {msgs : List RequestMsg}
    (hresolving : node.resolving = .requests (msg :: msgs)) :
    Turn digest node
      ({ node with resolving := .requests msgs }.getReq digest msg now).1
      ({ node with resolving := .requests msgs }.getReq digest msg now).2 := by
  have hnext : Resolving.requests msgs = node.resolving.next := by rw [hresolving]; rfl
  rw [hnext]
  cases hstate : node.currentState with
  | some state =>
      simp only [getReq, createStateForNewConsensus, Option.isSome_some, if_true]
      rw [← hstate]
      exact .kept
  | none =>
      simp only [getReq, createStateForNewConsensus, Option.isSome_none,
        Bool.false_eq_true, if_false]
      exact .started msg now hstate

variable (digest) in
theorem getPrePrepare_turn {msg : PrePrepareMsg H} {msgs : List (PrePrepareMsg H)}
    (hresolving : node.resolving = .prePrepares (msg :: msgs)) :
    Turn digest node
      ({ node with resolving := .prePrepares msgs }.getPrePrepare digest msg).1
      ({ node with resolving := .prePrepares msgs }.getPrePrepare digest msg).2 := by
  have hnext : Resolving.prePrepares msgs = node.resolving.next := by rw [hresolving]; rfl
  rw [hnext]
  unfold getPrePrepare
  cases hrequest : msg.requestMsg with
  | none => exact .crashed
  | some request =>
      cases hstate : node.currentState with
      | some state =>
          simp only [reduceCtorEq, createStateForNewConsensus, Option.isSome_some,
            if_true, if_false]
          rw [← hstate]
          exact .kept
      | none =>
          simp only [reduceCtorEq, createStateForNewConsensus, Option.isSome_none,
            Bool.false_eq_true, if_false, State.prePrepare, hrequest]
          cases hverify : State.verifyMsg digest
              { (createState node.view.id node.lastSequenceID : State H) with
                msgLogs := ⟨some request, ∅, ∅⟩ } msg.viewID msg.sequenceID msg.digest with
          | false =>
              simp only [createState] at hverify ⊢
              simp only [lastSequenceID] at hverify ⊢
              simp only [hverify, Bool.not_false, if_true]
              exact .refused request hstate
          | true =>
              have hdigest := State.digest_of_verifyMsg hverify
              simp only [createState] at hverify ⊢
              simp only [lastSequenceID] at hverify ⊢
              simp only [hverify, Bool.not_true, Bool.false_eq_true, if_false]
              exact .accepted msg request hstate hdigest

variable (digest) in
theorem getPrepare_turn {msg : VoteMsg H} {msgs : List (VoteMsg H)}
    (hresolving : node.resolving = .prepares (msg :: msgs)) :
    Turn digest node
      ({ node with resolving := .prepares msgs }.getPrepare digest msg).1
      ({ node with resolving := .prepares msgs }.getPrepare digest msg).2 := by
  have hnext : Resolving.prepares msgs = node.resolving.next := by rw [hresolving]; rfl
  rw [hnext]
  cases hstate : node.currentState with
  | none =>
      simp only [getPrepare]
      rw [← hstate]
      exact .crashed
  | some state =>
      rcases state.prepare_cases digest msg with
        ⟨_, hkept⟩ | ⟨hverify, hcounted | ⟨_, hprepared⟩⟩
      · simp only [getPrepare, hkept]
        rw [← hstate]
        exact .kept
      · simp only [getPrepare, hcounted]
        exact .countedPrepare state msg msgs hresolving hstate
          (State.digest_of_verifyMsg hverify)
      · simp only [getPrepare, hprepared]
        exact .prepared state msg msgs hresolving hstate (State.digest_of_verifyMsg hverify)

variable (digest) in
theorem getCommit_turn {msg : VoteMsg H} {msgs : List (VoteMsg H)}
    (hresolving : node.resolving = .commits (msg :: msgs)) :
    Turn digest node
      ({ node with resolving := .commits msgs }.getCommit digest msg).1
      ({ node with resolving := .commits msgs }.getCommit digest msg).2 := by
  have hnext : Resolving.commits msgs = node.resolving.next := by rw [hresolving]; rfl
  rw [hnext]
  cases hstate : node.currentState with
  | none =>
      simp only [getCommit]
      rw [← hstate]
      exact .crashed
  | some state =>
      rcases state.commit_cases digest msg with
        ⟨_, hkept⟩ | ⟨hverify, ⟨hcommitted, hcounted⟩ | ⟨reqMsg, reply, hcommitted, hrequest,
          hreported⟩⟩
      · simp only [getCommit, hkept]
        rw [← hstate]
        exact .kept
      · simp only [getCommit, hcounted]
        exact .countedCommit state msg msgs hresolving hstate hcommitted
      · simp only [getCommit, hreported]
        exact .committed state msg msgs reqMsg _ hresolving hstate hverify hcommitted hrequest

theorem resolveMsg_turn {now : Int}
    (h : node.resolveMsg digest now = some (node', posted)) :
    Turn digest node node' posted := by
  unfold resolveMsg at h
  split at h
  · cases h
  · rename_i hresolving
    cases h
    rw [show Resolving.idle = node.resolving.next by rw [hresolving]; rfl]
    exact .kept
  · rename_i msg msgs hresolving
    have hturn := getReq_turn digest now hresolving
    rw [Option.some.inj h] at hturn
    exact hturn
  · rename_i hresolving
    cases h
    rw [show Resolving.idle = node.resolving.next by rw [hresolving]; rfl]
    exact .kept
  · rename_i msg msgs hresolving
    have hturn := getPrePrepare_turn digest hresolving
    rw [Option.some.inj h] at hturn
    exact hturn
  · rename_i hresolving
    cases h
    rw [show Resolving.idle = node.resolving.next by rw [hresolving]; rfl]
    exact .kept
  · rename_i msg msgs hresolving
    have hturn := getPrepare_turn digest hresolving
    rw [Option.some.inj h] at hturn
    exact hturn
  · rename_i hresolving
    cases h
    rw [show Resolving.idle = node.resolving.next by rw [hresolving]; rfl]
    exact .kept
  · rename_i msg msgs hresolving
    have hturn := getCommit_turn digest hresolving
    rw [Option.some.inj h] at hturn
    exact hturn

inductive Acted (digest : Option RequestMsg → H) (node : Node H) :
    NodeAction H → Node H → List (Posted H) → Prop
  | routed (msg : Msg H) (hdelivering : node.delivering = []) :
      Acted digest node (.entrance msg) (node.routeMsg msg) []
  | alarmed (hdelivering : node.delivering = []) :
      Acted digest node .alarm node.routeMsgWhenAlarmed []
  | delivered (batch : Delivery H) (batches : List (Delivery H))
      (hdelivering : node.delivering = batch :: batches) (hresolving : node.resolving = .idle) :
      Acted digest node .delivery
        { node with delivering := batches, resolving := receive batch } []
  | resolved (now : Int) (node' : Node H) (posted : List (Posted H))
      (hturn : Turn digest node node' posted) :
      Acted digest node (.resolve now) node' posted

theorem act_acted {a : NodeAction H} (h : node.act digest a = some (node', posted)) :
    Acted digest node a node' posted := by
  unfold act at h
  cases a with
  | entrance msg =>
      dsimp only at h
      split at h
      · rename_i hdelivering
        cases h
        exact .routed msg hdelivering
      · cases h
  | alarm =>
      dsimp only at h
      split at h
      · rename_i hdelivering
        cases h
        exact .alarmed hdelivering
      · cases h
  | delivery =>
      dsimp only at h
      split at h
      · rename_i batch batches hdelivering hresolving
        cases h
        exact .delivered batch batches hdelivering hresolving
      · cases h
  | resolve now => exact .resolved now node' posted (resolveMsg_turn h)

theorem step_acted {a : NodeAction H} (h : node.step digest a = some node') :
    ∃ posted, Acted digest node a node' posted := by
  unfold step at h
  split at h
  · cases h
  · obtain ⟨⟨_, posted⟩, hact, rfl⟩ := Option.map_eq_some_iff.mp h
    exact ⟨posted, act_acted hact⟩

structure Still (node node' : Node H) : Prop where
  nodeID_eq : node'.nodeID = node.nodeID
  currentState_eq : node'.currentState = node.currentState
  committedMsgs_eq : node'.committedMsgs = node.committedMsgs

theorem Acted.turn_or_still {a : NodeAction H} (h : Acted digest node a node' posted) :
    (∃ now, a = .resolve now ∧ Turn digest node node' posted) ∨
      (posted = [] ∧ Still node node') := by
  cases h with
  | routed msg hdelivering =>
      obtain ⟨buffer, batches, hroute⟩ := routeMsg_eq node msg
      rw [hroute]
      exact .inr ⟨rfl, rfl, rfl, rfl⟩
  | alarmed hdelivering =>
      obtain ⟨batches, hroute⟩ := routeMsgWhenAlarmed_eq node
      rw [hroute]
      exact .inr ⟨rfl, rfl, rfl, rfl⟩
  | delivered batch batches hdelivering hresolving => exact .inr ⟨rfl, rfl, rfl, rfl⟩
  | resolved now node' posted hturn => exact .inl ⟨now, rfl, hturn⟩

end Digest

end Node

end BlockchainTutorial.Pbft
