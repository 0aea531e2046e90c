import BlockchainTutorial.Pbft.Turns

namespace BlockchainTutorial.Pbft

/-! Where the requests go that enter a node. `routeMsg` and `GetReq` both look at the
state of the node, but at different times. -/

variable {H : Type}

/-- What the client wrote. The primary puts its own number into the request. -/
def RequestMsg.content (msg : RequestMsg) : Int × String × String :=
  (msg.timestamp, msg.clientID, msg.operation)

def Delivery.requestMsgs : Delivery H → List RequestMsg
  | .requests msgs => msgs
  | _ => []

def Resolving.requestMsgs : Resolving H → List RequestMsg
  | .requests msgs => msgs
  | _ => []

/-- The request that enters with an action. -/
def NodeAction.enters : NodeAction H → List (Int × String × String)
  | .entrance (.request msg) => [msg.content]
  | _ => []

namespace Node

/-- The requests in the buffer and in the batches. -/
def pending (node : Node H) : List (Int × String × String) :=
  (node.msgBuffer.reqMsgs ++ node.delivering.flatMap Delivery.requestMsgs ++
    node.resolving.requestMsgs).map RequestMsg.content

/-- The requests of the state and of the committed messages. -/
def taken (node : Node H) : List (Int × String × String) :=
  ((node.currentState.bind (·.msgLogs.reqMsg)).toList ++ node.committedMsgs).map
    RequestMsg.content

/-- `getReq` looks at a request although there is a state. -/
def drops (node : Node H) : NodeAction H → List (Int × String × String)
  | .resolve _ =>
      match node.resolving, node.currentState with
      | .requests (msg :: _), some _ => [msg.content]
      | _, _ => []
  | _ => []

/-- A node takes one request, and no other like it. -/
def weight (node : Node H) (content : Int × String × String) : Nat :=
  node.pending.count content + if content ∈ node.taken then 1 else 0

variable {node node' : Node H}

/-- Without a state nothing is kept back. -/
def Fresh (node : Node H) : Prop :=
  node.currentState = none → node.msgBuffer.reqMsgs = [] ∧ node.committedMsgs = []

/-- No pre-prepare has come from another node. -/
structure Unprepared (node : Node H) : Prop where
  buffer : node.msgBuffer.prePrepareMsgs = []
  delivering : ∀ msgs, Delivery.prePrepares msgs ∉ node.delivering
  resolving : ∀ msgs, node.resolving ≠ .prePrepares msgs

theorem requestMsgs_receive (batch : Delivery H) :
    (receive batch).requestMsgs = batch.requestMsgs := by
  cases batch with
  | requests msgs => rfl
  | prePrepares msgs => rfl
  | votes msgs =>
      cases msgs with
      | nil => rfl
      | cons msg msgs => cases htype : msg.msgType <;> simp [receive, htype] <;> rfl

theorem weight_eq {content : Int × String × String}
    (hpending : node'.pending.count content = node.pending.count content)
    (htaken : node'.taken = node.taken) : node'.weight content = node.weight content := by
  simp only [weight, hpending, htaken]

theorem weight_routeMsg (msg : Msg H) (hdelivering : node.delivering = [])
    (content : Int × String × String) :
    (node.routeMsg msg).weight content =
      node.weight content + (NodeAction.entrance msg).enters.count content := by
  have htaken : (node.routeMsg msg).taken = node.taken := by
    obtain ⟨buffer, batches, hroute⟩ := routeMsg_eq node msg
    rw [hroute]
    rfl
  have hpending : (node.routeMsg msg).pending.count content =
      node.pending.count content + (NodeAction.entrance msg).enters.count content := by
    unfold routeMsg
    cases msg with
    | request msg =>
        dsimp only
        split
        · simp [pending, hdelivering, Delivery.requestMsgs, NodeAction.enters, List.count_cons]
          omega
        · simp [pending, hdelivering, NodeAction.enters, List.count_cons]
          omega
    | prePrepare msg =>
        dsimp only
        split <;> simp [pending, hdelivering, Delivery.requestMsgs, NodeAction.enters]
    | vote msg =>
        cases htype : msg.msgType with
        | prepareMsg =>
            simp only [htype]
            split <;> simp [pending, hdelivering, Delivery.requestMsgs, NodeAction.enters]
        | commitMsg =>
            simp only [htype]
            split <;> simp [pending, hdelivering, Delivery.requestMsgs, NodeAction.enters]
        | unknown code => simp [htype, NodeAction.enters]
  simp only [weight, htaken, hpending]
  omega

theorem stage_eq_none : node.stage = none ↔ node.currentState = none := by
  simp [stage]

theorem weight_routeMsgWhenAlarmed (h : Fresh node) (hdelivering : node.delivering = [])
    (content : Int × String × String) :
    node.routeMsgWhenAlarmed.weight content = node.weight content := by
  refine weight_eq ?_ ?_
  · unfold routeMsgWhenAlarmed
    split
    · rename_i hstage
      have hempty := (h (stage_eq_none.mp hstage)).1
      simp only [hempty, ne_eq, not_true_eq_false, if_false, List.nil_append]
      split <;> simp [pending, hempty, hdelivering, Delivery.requestMsgs]
    · split <;> simp [pending, hdelivering, Delivery.requestMsgs]
    · split <;> simp [pending, hdelivering, Delivery.requestMsgs]
    · rfl
  · obtain ⟨batches, halarmed⟩ := routeMsgWhenAlarmed_eq node
    rw [halarmed]
    rfl

theorem weight_delivered {batch : Delivery H} {batches : List (Delivery H)}
    (hdelivering : node.delivering = batch :: batches) (hresolving : node.resolving = .idle)
    (content : Int × String × String) :
    { node with delivering := batches, resolving := receive batch }.weight content =
      node.weight content := by
  refine weight_eq ?_ rfl
  have hidle : (Resolving.idle : Resolving H).requestMsgs = [] := rfl
  simp only [pending, requestMsgs_receive, hdelivering, hresolving, hidle, List.flatMap_cons,
    List.map_append, List.count_append, List.map_nil, List.count_nil]
  omega

theorem requestMsgs_next {batch : Resolving H} (h : batch.requestMsgs = []) :
    batch.next.requestMsgs = [] := by
  cases batch with
  | idle => rfl
  | requests msgs =>
      cases msgs with
      | nil => rfl
      | cons msg msgs => cases h
  | prePrepares msgs => cases msgs <;> rfl
  | prepares msgs => cases msgs <;> rfl
  | commits msgs => cases msgs <;> rfl

theorem Fresh.taken (h : Fresh node) (hstate : node.currentState = none) :
    node.taken = [] := by
  simp [Node.taken, hstate, (h hstate).2]

theorem weight_le (hpending : node'.pending = node.pending)
    {content : Int × String × String}
    (htaken : content ∈ node.taken → content ∈ node'.taken) :
    node.weight content ≤ node'.weight content := by
  simp only [weight, hpending]
  by_cases hmem : content ∈ node.taken
  · simp [hmem, htaken hmem]
  · simp [hmem]

theorem drops_eq_nil {now : Int} (h : node.resolving.requestMsgs = []) :
    node.drops (.resolve now) = [] := by
  unfold drops
  dsimp only
  split
  · rename_i hrequests _
    rw [hrequests] at h
    cases h
  · rfl

section Digest

variable [DecidableEq H] {digest : Option RequestMsg → H} {nodeID : String}
  {posted : List (Posted H)}

def entered (run : NodeRun digest nodeID) (k : Nat) : List (Int × String × String) :=
  (List.range k).flatMap fun j => (run.act j).enters

def dropped (run : NodeRun digest nodeID) (k : Nat) : List (Int × String × String) :=
  (List.range k).flatMap fun j => (run.state j).drops (run.act j)

theorem entered_succ (run : NodeRun digest nodeID) (k : Nat) :
    entered run (k + 1) = entered run k ++ (run.act k).enters := by
  simp [entered, List.range_succ]

theorem dropped_succ (run : NodeRun digest nodeID) (k : Nat) :
    dropped run (k + 1) = dropped run k ++ (run.state k).drops (run.act k) := by
  simp [dropped, List.range_succ]

theorem Turn.pending (h : Turn digest node node' posted)
    (hresolving : node.resolving.requestMsgs = []) : node'.pending = node.pending := by
  have hnext := requestMsgs_next hresolving
  cases h <;> simp only [Node.pending, hresolving, hnext]

/-- The request of a state stays, and it is the one that is committed. -/
theorem Turn.taken (h : Turn digest node node' posted) {state : State H}
    (hstate : node.currentState = some state) (content : Int × String × String) :
    content ∈ node'.taken ↔ content ∈ node.taken := by
  have hnone : node.currentState ≠ none := by
    rw [hstate]
    simp
  cases h with
  | kept => rfl
  | crashed => rfl
  | started request now hother => exact absurd hother hnone
  | refused request hother => exact absurd hother hnone
  | accepted msg request hother hdigest => exact absurd hother hnone
  | countedPrepare state msg msgs hresolving hother hdigest => simp [Node.taken, hother]
  | prepared state msg msgs hresolving hother hdigest => simp [Node.taken, hother]
  | countedCommit state msg msgs hresolving hother hcommitted => simp [Node.taken, hother]
  | committed state msg msgs reqMsg reply hresolving hother hverify hcommitted hrequest =>
      simp only [Node.taken, hother, hrequest, Option.bind_some, State.countCommit_reqMsg,
        Option.toList_some, List.map_append, List.map_cons, List.map_nil, List.mem_append]
      constructor
      · rintro (hfirst | hold | hnew)
        · exact .inl hfirst
        · exact .inr hold
        · exact .inl hnew
      · rintro (hfirst | hold)
        · exact .inl hfirst
        · exact .inr (.inl hold)

theorem Turn.weight (h : Turn digest node node' posted)
    (hresolving : node.resolving.requestMsgs = []) {state : State H}
    (hstate : node.currentState = some state) (content : Int × String × String) :
    node'.weight content = node.weight content := by
  refine Nat.le_antisymm ?_ ?_
  · exact weight_le (h.pending hresolving).symm (h.taken hstate content).mp
  · exact weight_le (h.pending hresolving) (h.taken hstate content).mpr

variable (digest) in
omit [DecidableEq H] in
theorem weight_getReq (now : Int) {msg : RequestMsg} {msgs : List RequestMsg} (h : Fresh node)
    (hresolving : node.resolving = .requests (msg :: msgs))
    (content : Int × String × String) :
    ({ node with resolving := .requests msgs }.getReq digest msg now).1.weight content +
      (node.drops (.resolve now)).count content = node.weight content := by
  have hpending : node.pending.count content =
      { node with resolving := .requests msgs }.pending.count content +
        [msg.content].count content := by
    simp [Node.pending, hresolving, Resolving.requestMsgs, List.count_cons]
    omega
  rcases Option.eq_none_or_eq_some node.currentState with hstate | ⟨state, hstate⟩
  · have hdrops : node.drops (.resolve now) = [] := by
      simp only [drops, hresolving, hstate]
    have hreq : ({ node with resolving := .requests msgs }.getReq digest msg now).1 =
        { node with
          resolving := .requests msgs
          currentState := some ((createState node.view.id node.lastSequenceID).startConsensus
            digest msg now).1 } := by
      simp [getReq, createStateForNewConsensus, hstate, lastSequenceID]
    have htaken : ({ node with resolving := .requests msgs }.getReq digest msg now).1.taken =
        [msg.content] := by
      rw [hreq]
      simp [Node.taken, (h hstate).2, State.startConsensus, RequestMsg.content]
    rw [weight, weight, htaken, hdrops, h.taken hstate, hpending, hreq]
    by_cases hcontent : content = msg.content
    · simp [Node.pending, hcontent]
    · simp [Node.pending, hcontent, Ne.symm hcontent]
  · have hdrops : node.drops (.resolve now) = [msg.content] := by
      simp only [drops, hresolving, hstate]
    have hreq : ({ node with resolving := .requests msgs }.getReq digest msg now).1 =
        { node with resolving := .requests msgs } := by
      simp [getReq, createStateForNewConsensus, hstate]
    rw [hreq, hdrops, weight, weight, hpending]
    exact Nat.add_right_comm _ _ _

/-- A vote finds a state, or crashes the node. -/
theorem weight_vote {now : Int} (h : node.resolveMsg digest now = some (node', posted))
    (hresolving : node.resolving.requestMsgs = [])
    (hvotes : ∀ msgs, node.resolving ≠ .prePrepares msgs) (content : Int × String × String) :
    node'.weight content = node.weight content := by
  have hturn := resolveMsg_turn h
  rcases Option.eq_none_or_eq_some node.currentState with hstate | ⟨state, hstate⟩
  · have hsame : node'.taken = node.taken := by
      unfold resolveMsg at h
      split at h
      · cases h
      · cases h
        rfl
      · rename_i hrequests
        rw [hrequests] at hresolving
        cases hresolving
      · cases h
        rfl
      · rename_i hprePrepares
        exact absurd hprePrepares (hvotes _)
      · cases h
        rfl
      · simp only [getPrepare, hstate, Option.some.injEq, Prod.mk.injEq] at h
        rw [← h.1]
        simp [Node.taken, crash, hstate]
      · cases h
        rfl
      · simp only [getCommit, hstate, Option.some.injEq, Prod.mk.injEq] at h
        rw [← h.1]
        simp [Node.taken, crash, hstate]
    exact weight_eq (by rw [hturn.pending hresolving]) hsame
  · exact hturn.weight hresolving hstate content

theorem weight_resolveMsg {now : Int} (hfresh : Fresh node)
    (h : node.resolveMsg digest now = some (node', posted)) (content : Int × String × String) :
    node.weight content ≤
        node'.weight content + (node.drops (.resolve now)).count content ∧
      ((∀ msgs, node.resolving ≠ .prePrepares msgs) →
        node'.weight content + (node.drops (.resolve now)).count content =
          node.weight content) := by
  by_cases hrequests : node.resolving.requestMsgs = []
  · rw [drops_eq_nil hrequests, List.count_nil, Nat.add_zero]
    refine ⟨?_, fun hvotes => weight_vote h hrequests hvotes content⟩
    have hturn := resolveMsg_turn h
    rcases Option.eq_none_or_eq_some node.currentState with hstate | ⟨state, hstate⟩
    · refine weight_le (hturn.pending hrequests) ?_
      rw [hfresh.taken hstate]
      simp
    · exact Nat.le_of_eq (hturn.weight hrequests hstate content).symm
  · obtain ⟨msg, msgs, hresolving⟩ :
        ∃ msg msgs, node.resolving = .requests (msg :: msgs) := by
      cases hresolving : node.resolving with
      | requests batch =>
          cases batch with
          | nil => simp [hresolving, Resolving.requestMsgs] at hrequests
          | cons msg msgs => exact ⟨msg, msgs, rfl⟩
      | _ => simp [hresolving, Resolving.requestMsgs] at hrequests
    have hreq := weight_getReq digest now hfresh hresolving content
    simp only [resolveMsg, hresolving, Option.some.injEq] at h
    rw [h] at hreq
    exact ⟨Nat.le_of_eq hreq.symm, fun _ => hreq⟩

theorem weight_act {a : NodeAction H} (hfresh : Fresh node)
    (h : node.act digest a = some (node', posted)) (content : Int × String × String) :
    node.weight content + a.enters.count content ≤
        node'.weight content + (node.drops a).count content ∧
      ((∀ msgs, node.resolving ≠ .prePrepares msgs) →
        node'.weight content + (node.drops a).count content =
          node.weight content + a.enters.count content) := by
  cases a with
  | resolve now => exact weight_resolveMsg hfresh h content
  | entrance msg =>
      cases act_acted h with
      | routed msg hdelivering =>
          have hweight := weight_routeMsg msg hdelivering content
          exact ⟨Nat.le_of_eq hweight.symm, fun _ => hweight⟩
  | alarm =>
      cases act_acted h with
      | alarmed hdelivering =>
          have hweight := weight_routeMsgWhenAlarmed hfresh hdelivering content
          exact ⟨Nat.le_of_eq hweight.symm, fun _ => hweight⟩
  | delivery =>
      cases act_acted h with
      | delivered batch batches hdelivering hresolving =>
          have hweight := weight_delivered hdelivering hresolving content
          exact ⟨Nat.le_of_eq hweight.symm, fun _ => hweight⟩

/-! `Fresh` and `Unprepared` hold along a run. -/

theorem Fresh.act {a : NodeAction H} (hfresh : Fresh node)
    (hacted : Acted digest node a node' posted) : Fresh node' := by
  cases hacted with
  | routed msg hdelivering =>
      unfold Fresh at hfresh ⊢
      unfold routeMsg
      cases msg with
      | request msg =>
          dsimp only
          split
          · exact fun hstate => ⟨rfl, (hfresh hstate).2⟩
          · rename_i hstate
            exact fun hnone => absurd (Option.isNone_iff_eq_none.mpr hnone) hstate
      | prePrepare msg =>
          dsimp only
          split <;> exact hfresh
      | vote msg =>
          cases htype : msg.msgType <;> simp only [htype]
          · split <;> exact hfresh
          · split <;> exact hfresh
          · exact hfresh
  | alarmed hdelivering =>
      obtain ⟨batches, halarmed⟩ := routeMsgWhenAlarmed_eq node
      rw [halarmed]
      exact hfresh
  | delivered batch batches hdelivering hresolving => exact hfresh
  | resolved now node' posted hturn =>
      cases hturn with
      | kept => exact hfresh
      | crashed => exact hfresh
      | _ => exact fun hnone => nomatch hnone

theorem Unprepared.act {a : NodeAction H} (h : Unprepared node)
    (hacted : Acted digest node a node' posted) (ha : ∀ msg, a ≠ .entrance (.prePrepare msg)) :
    Unprepared node' := by
  cases hacted with
  | routed msg hdelivering =>
      unfold routeMsg
      cases msg with
      | request msg =>
          dsimp only
          split
          · exact ⟨h.buffer, by simp, h.resolving⟩
          · exact ⟨h.buffer, h.delivering, h.resolving⟩
      | prePrepare msg => exact absurd rfl (ha msg)
      | vote msg =>
          cases htype : msg.msgType <;> simp only [htype]
          · split
            · exact ⟨h.buffer, h.delivering, h.resolving⟩
            · exact ⟨h.buffer, by simp, h.resolving⟩
          · split
            · exact ⟨h.buffer, h.delivering, h.resolving⟩
            · exact ⟨h.buffer, by simp, h.resolving⟩
          · exact h
  | alarmed hdelivering =>
      unfold routeMsgWhenAlarmed
      split
      · refine ⟨h.buffer, ?_, h.resolving⟩
        simp only [h.buffer, ne_eq, not_true_eq_false, if_false, List.append_nil]
        split <;> simp
      · split
        · exact ⟨h.buffer, by simp, h.resolving⟩
        · exact h
      · split
        · exact ⟨h.buffer, by simp, h.resolving⟩
        · exact h
      · exact h
  | delivered batch batches hdelivering hresolving =>
      refine ⟨h.buffer, ?_, ?_⟩
      · intro msgs hmem
        exact h.delivering msgs (by rw [hdelivering]; exact List.mem_cons_of_mem _ hmem)
      · intro msgs hreceive
        cases batch with
        | requests requests => cases hreceive
        | prePrepares prePrepares =>
            exact h.delivering prePrepares (by rw [hdelivering]; exact List.mem_cons_self)
        | votes votes =>
            cases votes with
            | nil => cases hreceive
            | cons vote votes => cases htype : vote.msgType <;> simp [receive, htype] at hreceive
  | resolved now node' posted hturn =>
      have hnext : ∀ msgs, node.resolving.next ≠ .prePrepares msgs := by
        intro msgs hmsgs
        unfold Resolving.next at hmsgs
        split at hmsgs <;> cases hmsgs
        rename_i hresolving
        exact h.resolving _ hresolving
      cases hturn <;> exact ⟨h.buffer, h.delivering, hnext⟩

theorem run_fresh (run : NodeRun digest nodeID) :
    ∀ k, k ≤ run.length → Fresh (run.state k) := by
  refine run.invariant (fun _ => ⟨rfl, rfl⟩) ?_
  intro node a node' hfresh hstep
  obtain ⟨posted, hacted⟩ := step_acted hstep
  exact hfresh.act hacted

theorem run_unprepared (run : NodeRun digest nodeID)
    (hrequests : ∀ k, k < run.length → ∀ msg, run.act k ≠ .entrance (.prePrepare msg)) :
    ∀ k, k ≤ run.length → Unprepared (run.state k) := by
  refine run.induct ?_ ?_
  · rw [run.starts]
    refine ⟨rfl, ?_, ?_⟩ <;> simp [newNode]
  · intro k hk h
    obtain ⟨posted, hacted⟩ := step_acted (run.steps k hk)
    exact h.act hacted (hrequests k hk)

theorem act_of_step {a : NodeAction H} (h : node.step digest a = some node') :
    ∃ posted, node.act digest a = some (node', posted) := by
  unfold step at h
  split at h
  · cases h
  · obtain ⟨⟨_, posted⟩, hact, rfl⟩ := Option.map_eq_some_iff.mp h
    exact ⟨posted, hact⟩

/-- What has entered a node is there, or was dropped. -/
theorem entered_le (run : NodeRun digest nodeID) (content : Int × String × String) :
    ∀ k, k ≤ run.length → (entered run k).count content ≤
      (run.state k).weight content + (dropped run k).count content := by
  refine run.induct (by simp [entered]) ?_
  intro k hk ih
  obtain ⟨posted, hact⟩ := act_of_step (run.steps k hk)
  have hweight := (weight_act (run_fresh run k (by omega)) hact content).1
  rw [entered_succ, dropped_succ, List.count_append, List.count_append]
  omega

theorem entered_eq (run : NodeRun digest nodeID)
    (hrequests : ∀ k, k < run.length → ∀ msg, run.act k ≠ .entrance (.prePrepare msg))
    (content : Int × String × String) :
    ∀ k, k ≤ run.length → (entered run k).count content =
      (run.state k).weight content + (dropped run k).count content := by
  refine run.induct ?_ ?_
  · rw [run.starts]
    simp [entered, dropped, weight, pending, taken, newNode, Resolving.requestMsgs]
  · intro k hk ih
    obtain ⟨posted, hact⟩ := act_of_step (run.steps k hk)
    have hweight := (weight_act (run_fresh run k (by omega)) hact content).2
      (run_unprepared run hrequests k (by omega)).resolving
    rw [entered_succ, dropped_succ, List.count_append, List.count_append]
    omega

/-- Each request that entered is in the buffer, in a batch, or is the one that the
node took. -/
def NoneLost (run : NodeRun digest nodeID) (k : Nat) : Prop :=
  ∀ content, (entered run k).count content ≤ (run.state k).weight content

theorem requests_kept (run : NodeRun digest nodeID) :
    ((run.AllSteps fun node a => node.drops a = []) →
      ∀ k, k ≤ run.length → NoneLost run k) ∧
    ((∀ k, k < run.length → ∀ msg, run.act k ≠ .entrance (.prePrepare msg)) →
      (∀ k, k ≤ run.length → NoneLost run k) →
      run.AllSteps fun node a => node.drops a = []) := by
  constructor
  · intro hkept k hk content
    have hdropped : dropped run k = [] := by
      simp only [dropped, List.flatMap_eq_nil_iff, List.mem_range]
      exact fun j hj => hkept j (by omega)
    have hle := entered_le run content k hk
    rwa [hdropped, List.count_nil, Nat.add_zero] at hle
  · intro hrequests hnone k hk
    rw [List.eq_nil_iff_forall_not_mem]
    intro content hdrop
    have heq := entered_eq run hrequests content (k + 1) hk
    have hle := hnone (k + 1) hk content
    rw [dropped_succ, List.count_append] at heq
    have hpos := List.count_pos_iff.mpr hdrop
    omega

end Digest

end Node

section Late

def lateRequest (timestamp : Int) : NodeAction (Option RequestMsg) :=
  .entrance (.request ⟨timestamp, "client", "op", 0⟩)

/-- The second request is routed while the first is not resolved yet. -/
def lateActs : List (NodeAction (Option RequestMsg)) :=
  [lateRequest 1, .delivery, lateRequest 2, .resolve 5, .resolve 5, .delivery, .resolve 6]

def soleActs : List (NodeAction (Option RequestMsg)) :=
  [lateRequest 1, .delivery, .resolve 5, .resolve 5]

theorem soleActs_exec :
    (Lib.exec (Node.step id) (newNode "Apple") soleActs).isSome := by decide +kernel

theorem lateActs_exec :
    (Lib.exec (Node.step id) (newNode "Apple") lateActs).isSome := by decide +kernel

theorem requests_kept_one : ∃ run : NodeRun (id : Option RequestMsg → _) "Apple",
    run.length = 4 ∧ ∀ k, k ≤ run.length → Node.NoneLost run k :=
  ⟨.ofActions soleActs soleActs_exec, rfl, (Node.requests_kept _).1 (by decide +kernel)⟩

theorem late_request_lost : ¬ ∀ run : NodeRun (id : Option RequestMsg → _) "Apple",
    ∀ k, k ≤ run.length → Node.NoneLost run k := by
  intro hall
  have hlost := hall (.ofActions lateActs lateActs_exec) 7 (by decide) (2, "client", "op")
  exact absurd hlost (by decide +kernel)

end Late

end BlockchainTutorial.Pbft
