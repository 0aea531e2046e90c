import BlockchainTutorial.Pbft.Certificates
import BlockchainTutorial.Pbft.Messages
import BlockchainTutorial.Pbft.Servers

namespace BlockchainTutorial.Pbft

/-! What a node does when all nodes are honest and the primary has one request: every
message is about this request, every vote is counted. -/

variable {H : Type}

def MsgType.Known (msgType : MsgType) : Prop :=
  msgType = .prepareMsg ∨ msgType = .commitMsg

section Digest

variable (digest : Option RequestMsg → H) (request : RequestMsg)

def prePrepareOf : PrePrepareMsg H :=
  ⟨10000000000, request.sequenceID, digest (some request), some request⟩

def voteOf (nodeID : String) (msgType : MsgType) : VoteMsg H :=
  ⟨10000000000, request.sequenceID, digest (some request), nodeID, msgType⟩

/-- The messages that a node can get. -/
def Proper (nodeID : String) : Msg H → Prop
  | .request _ => nodeID = primary
  | .prePrepare msg => nodeID ≠ primary ∧ msg = prePrepareOf digest request
  | .vote msg => msg.msgType.Known ∧ msg = voteOf digest request msg.nodeID msg.msgType

/-- A state of the one consensus; its stage is where its votes have brought it. -/
structure Fits (state : State H) : Prop where
  viewID : state.viewID = 10000000000
  lastSequenceID : state.lastSequenceID = -1
  reqMsg : state.msgLogs.reqMsg = some request
  started : state.currentStage ≠ .idle
  prepares : state.currentStage = .prePrepared ↔ state.msgLogs.prepareMsgs.keys.length < 2
  commits : state.currentStage = .committed ↔ 2 ≤ state.msgLogs.commitMsgs.keys.length

end Digest

variable {digest : Option RequestMsg → H} {request : RequestMsg}

theorem Proper.known {nodeID : String} {msg : Msg H} (h : Proper digest request nodeID msg) :
    Node.Known msg := by
  cases msg with
  | request msg => trivial
  | prePrepare msg => trivial
  | vote msg => exact h.1

/-- The state with which the consensus begins at every node. -/
def freshState (request : RequestMsg) : State H :=
  ⟨10000000000, ⟨some request, ∅, ∅⟩, -1, .prePrepared⟩

namespace Fits

theorem freshState : Fits request (freshState request : State H) := by
  refine ⟨rfl, rfl, rfl, ?_, ?_, ?_⟩ <;> simp [Pbft.freshState]

variable {state : State H}

theorem verifyMsg [DecidableEq H] (h : Fits request state) :
    state.verifyMsg digest 10000000000 request.sequenceID (digest (some request)) = true := by
  rw [State.verifyMsg_eq_true, h.viewID, h.reqMsg]
  exact ⟨rfl, .inl h.lastSequenceID, rfl⟩

theorem prepared_countPrepare (h : Fits request state) (msg : VoteMsg H) :
    (state.countPrepare msg).prepared = true ↔
      2 ≤ (state.countPrepare msg).msgLogs.prepareMsgs.keys.length := by
  unfold State.prepared
  rw [State.countPrepare_reqMsg, h.reqMsg, if_neg (by simp)]
  constructor
  · intro hprepared
    by_contra hfew
    rw [if_pos (by unfold f; omega)] at hprepared
    cases hprepared
  · intro hmany
    rw [if_neg (by unfold f; omega)]

variable (digest) in
/-- A vote to prepare is counted; with the second one the node votes to commit. -/
theorem prepare [DecidableEq H] (h : Fits request state) (nodeID : String)
    (hstage : state.currentStage = .prePrepared ∨ state.currentStage = .prepared) :
    ∃ stage, Fits request { state.countPrepare (voteOf digest request nodeID .prepareMsg) with
        currentStage := stage } ∧
      (stage = state.currentStage ∧ state.prepare digest
          (voteOf digest request nodeID .prepareMsg) =
            ({ state.countPrepare (voteOf digest request nodeID .prepareMsg) with
              currentStage := stage }, .ok none) ∨
        stage = .prepared ∧ state.prepare digest
          (voteOf digest request nodeID .prepareMsg) =
            ({ state.countPrepare (voteOf digest request nodeID .prepareMsg) with
              currentStage := stage }, .ok (some (voteOf digest request "" .commitMsg)))) := by
  generalize hvote : voteOf digest request nodeID .prepareMsg = msg
  have hverify : state.verifyMsg digest msg.viewID msg.sequenceID msg.digest = true := by
    rw [← hvote]
    exact h.verifyMsg
  have hmonotone : state.msgLogs.prepareMsgs.keys.length ≤
      (state.countPrepare msg).msgLogs.prepareMsgs.keys.length :=
    State.length_keys_insert _ _ _
  have huncommitted : ¬ 2 ≤ state.msgLogs.commitMsgs.keys.length := by
    rw [← h.commits]
    rcases hstage with hstage | hstage <;> simp [hstage]
  unfold State.prepare
  rw [hverify]
  cases hprepared : (state.countPrepare msg).prepared with
  | false =>
      have hfew := mt (h.prepared_countPrepare msg).mpr (by rw [hprepared]; simp)
      refine ⟨state.currentStage, ⟨h.viewID, h.lastSequenceID, h.reqMsg, h.started, ?_, ?_⟩,
        .inl ⟨rfl, ?_⟩⟩
      · refine ⟨fun _ => Nat.lt_of_not_le hfew, fun _ => h.prepares.mpr ?_⟩
        omega
      · exact h.commits
      · simp only [Bool.not_true, Bool.false_eq_true, if_false, hprepared]
        rfl
  | true =>
      have hmany := (h.prepared_countPrepare msg).mp hprepared
      refine ⟨.prepared, ⟨h.viewID, h.lastSequenceID, h.reqMsg, by simp, ?_, ?_⟩,
        .inr ⟨rfl, ?_⟩⟩
      · exact ⟨nofun, fun hfew => absurd hmany (Nat.not_le_of_lt hfew)⟩
      · exact ⟨nofun, fun hvoted => absurd hvoted huncommitted⟩
      · simp only [Bool.not_true, Bool.false_eq_true, if_false, hprepared, if_true]
        rw [show (state.countPrepare msg).viewID = 10000000000 from h.viewID, ← hvote]
        rfl

variable (digest) in
/-- A vote to commit is counted; with the second one the node commits. -/
theorem commit [DecidableEq H] (h : Fits request state) (nodeID : String)
    (hstage : state.currentStage = .prepared ∨ state.currentStage = .committed) :
    ∃ stage result, Fits request
        { state.countCommit (voteOf digest request nodeID .commitMsg) with
          currentStage := stage } ∧
      (result = none ∨ ∃ reply, result = some (reply, request)) ∧
      state.commit digest (voteOf digest request nodeID .commitMsg) =
        ({ state.countCommit (voteOf digest request nodeID .commitMsg) with
          currentStage := stage }, .ok result) := by
  generalize hvote : voteOf digest request nodeID .commitMsg = msg
  have hverify : state.verifyMsg digest msg.viewID msg.sequenceID msg.digest = true := by
    rw [← hvote]
    exact h.verifyMsg
  have hmonotone : state.msgLogs.commitMsgs.keys.length ≤
      (state.countCommit msg).msgLogs.commitMsgs.keys.length :=
    State.length_keys_insert _ _ _
  have hprepares : ¬ state.msgLogs.prepareMsgs.keys.length < 2 := by
    rw [← h.prepares]
    rcases hstage with hstage | hstage <;> simp [hstage]
  have hcommitted : (state.countCommit msg).committed = true ↔
      2 ≤ (state.countCommit msg).msgLogs.commitMsgs.keys.length := by
    rw [State.committed_eq_true, State.countCommit_reqMsg, h.reqMsg]
    refine ⟨fun hall => hall.2.2, fun hcommits => ⟨by simp, ?_, hcommits⟩⟩
    exact Nat.le_of_not_lt hprepares
  unfold State.commit
  rw [hverify]
  simp only [Bool.not_true, Bool.false_eq_true, if_false, State.countCommit_reqMsg, h.reqMsg]
  cases hall : (state.countCommit msg).committed with
  | false =>
      have hfew := mt hcommitted.mpr (by rw [hall]; simp)
      refine ⟨state.currentStage, none, ⟨h.viewID, h.lastSequenceID, h.reqMsg, h.started,
        h.prepares, ?_⟩, .inl rfl, rfl⟩
      rw [h.commits]
      exact ⟨fun hmany => absurd (Nat.le_trans hmany hmonotone) hfew,
        fun hmany => absurd hmany hfew⟩
  | true =>
      refine ⟨.committed, _, ⟨h.viewID, h.lastSequenceID, h.reqMsg, by simp, ?_, ?_⟩,
        .inr ⟨_, rfl⟩, rfl⟩
      · exact ⟨nofun, fun hfew => absurd hfew hprepares⟩
      · exact ⟨fun _ => hcommitted.mp hall, fun _ => rfl⟩

end Fits

theorem startConsensus_createState (msg : RequestMsg) (now : Int) :
    (createState 10000000000 (-1) : State H).startConsensus digest msg now =
      (freshState { msg with sequenceID := now },
        prePrepareOf digest { msg with sequenceID := now }) := by
  simp only [State.startConsensus, createState, ne_eq, not_true_eq_false, if_false]
  rfl

theorem prePrepare_createState [DecidableEq H] :
    (createState 10000000000 (-1) : State H).prePrepare digest (prePrepareOf digest request) =
      (freshState request, .ok (voteOf digest request "" .prepareMsg)) := by
  have hverify : State.verifyMsg digest (⟨10000000000, ⟨some request, ∅, ∅⟩, -1, .idle⟩ : State H)
      10000000000 request.sequenceID (digest (some request)) = true := by
    rw [State.verifyMsg_eq_true]
    exact ⟨rfl, .inl rfl, rfl⟩
  simp only [State.prePrepare, createState, prePrepareOf, hverify, Bool.not_true,
    Bool.false_eq_true, if_false]
  rfl

/-! What a state has taken in of a message, and what it has to tell the others. -/

def Absorbed (state : Option (State H)) : Msg H → Prop
  | .request _ => state ≠ none
  | .prePrepare _ => state ≠ none
  | .vote msg => ∃ counted, state = some counted ∧
      (msg.msgType = .prepareMsg → msg.nodeID ∈ counted.msgLogs.prepareMsgs.keys) ∧
      (msg.msgType = .commitMsg → msg.nodeID ∈ counted.msgLogs.commitMsgs.keys)

variable (digest request) in
def Owes (nodeID : String) (state : Option (State H)) : Msg H → Prop
  | .request _ => False
  | .prePrepare msg => nodeID = primary ∧ state ≠ none ∧ msg = prePrepareOf digest request
  | .vote msg =>
      (nodeID ≠ primary ∧ state ≠ none ∧ msg = voteOf digest request nodeID .prepareMsg) ∨
      ((∃ voted, state = some voted ∧
          (voted.currentStage = .prepared ∨ voted.currentStage = .committed)) ∧
        msg = voteOf digest request nodeID .commitMsg)

theorem Owes.proper {nodeID target : String} {state : Option (State H)} {msg : Msg H}
    (h : Owes digest request nodeID state msg) (hother : target ≠ nodeID) :
    Proper digest request target msg := by
  cases msg with
  | request msg => exact h.elim
  | prePrepare msg =>
      obtain ⟨rfl, _, rfl⟩ := h
      exact ⟨hother, rfl⟩
  | vote msg =>
      rcases h with ⟨_, _, rfl⟩ | ⟨_, rfl⟩
      · exact ⟨.inl rfl, rfl⟩
      · exact ⟨.inr rfl, rfl⟩

/-- A state that has voted to commit owes no more than before, but for this vote. -/
theorem Owes.back {nodeID : String} {state state' : State H} {msg : Msg H}
    (h : Owes digest request nodeID (some state') msg) :
    Owes digest request nodeID (some state) msg ∨
      msg = .vote (voteOf digest request nodeID .commitMsg) ∧
        (state'.currentStage = .prepared ∨ state'.currentStage = .committed) := by
  cases msg with
  | request msg => exact h.elim
  | prePrepare msg => exact .inl ⟨h.1, Option.some_ne_none _, h.2.2⟩
  | vote msg =>
      rcases h with ⟨hbackup, _, rfl⟩ | ⟨⟨_, hvoted, hstage⟩, rfl⟩
      · exact .inl (.inl ⟨hbackup, Option.some_ne_none _, rfl⟩)
      · rw [← Option.some.inj hvoted] at hstage
        exact .inr ⟨rfl, hstage⟩

theorem Absorbed.mono {state state' : State H} {msg : Msg H}
    (h : Absorbed (some state) msg)
    (hprepares : state.msgLogs.prepareMsgs.keys ⊆ state'.msgLogs.prepareMsgs.keys)
    (hcommits : state.msgLogs.commitMsgs.keys ⊆ state'.msgLogs.commitMsgs.keys) :
    Absorbed (some state') msg := by
  cases msg with
  | request msg => exact Option.some_ne_none _
  | prePrepare msg => exact Option.some_ne_none _
  | vote msg =>
      obtain ⟨counted, hcounted, hprepare, hcommit⟩ := h
      obtain rfl := Option.some.inj hcounted
      exact ⟨state', rfl, fun htype => hprepares (hprepare htype),
        fun htype => hcommits (hcommit htype)⟩

theorem not_absorbed_none {msg : Msg H} : ¬ Absorbed (none : Option (State H)) msg := by
  intro h
  cases msg with
  | request msg => exact h rfl
  | prePrepare msg => exact h rfl
  | vote msg =>
      obtain ⟨_, hstate, _⟩ := h
      cases hstate

theorem keys_subset_insert (votes : VoteMap H) (nodeID : String) (msg : VoteMsg H) :
    votes.keys ⊆ (votes.insert nodeID msg).keys := by
  intro key hkey
  rw [← AList.mem_keys] at hkey ⊢
  rw [AList.mem_insert]
  exact .inr hkey

namespace Node

variable (digest request) in
structure Faultless (nodeID : String) (node : Node H) : Prop where
  nodeID_eq : node.nodeID = nodeID
  viewID : node.view.id = 10000000000
  running : node.crashed = false
  typed : Typed node
  orderly : Orderly node
  ledger : Ledger node
  fits : ∀ state, node.currentState = some state → Fits request state
  proper : ∀ m ∈ node.msgs, Proper digest request nodeID m

theorem faultless_newNode (nodeID : String) :
    Faultless digest request nodeID (newNode nodeID : Node H) := by
  refine ⟨rfl, rfl, rfl, typed_newNode nodeID, orderly_newNode nodeID, ledger_newNode nodeID,
    ?_, ?_⟩
  · intro state hstate
    cases hstate
  · intro m hmem
    rw [msgs_newNode] at hmem
    cases hmem

variable (digest request) in
/-- What a step of a node leaves of its messages, and what it adds to its debts. -/
structure Moved (nodeID : String) (node node' : Node H) (posted : Option (Msg H)) : Prop where
  faultless : Faultless digest request nodeID node'
  kept : ∀ m ∈ node.msgs, m ∈ node'.msgs ∨ Absorbed node'.currentState m
  absorbed : ∀ m, Absorbed node.currentState m → Absorbed node'.currentState m
  owes : ∀ m, Owes digest request nodeID node'.currentState m →
    Owes digest request nodeID node.currentState m ∨ posted = some m
  posts : ∀ m, posted = some m → Owes digest request nodeID node'.currentState m ∧
    node'.stage ≠ some .committed

variable {nodeID : String} {node node' : Node H}

theorem mem_msgs_of_head {m : Msg H} (h : node.resolving.head = some m) : m ∈ node.msgs :=
  mem_msgs.mpr (.inr (.inl ((Resolving.mem_msgs_iff _).mpr (.inl h))))

theorem Faultless.still (h : Faultless digest request nodeID node)
    (hstill : Still node node') (hview : node'.view = node.view)
    (hcrashed : node'.crashed = node.crashed) (htyped : Typed node') (horderly : Orderly node')
    (hproper : ∀ m ∈ node'.msgs, Proper digest request nodeID m)
    (hkept : ∀ m ∈ node.msgs, m ∈ node'.msgs) :
    Moved digest request nodeID node node' none := by
  refine ⟨⟨?_, ?_, ?_, htyped, horderly, ?_, ?_, hproper⟩, ?_, ?_, ?_, ?_⟩
  · exact hstill.nodeID_eq.trans h.nodeID_eq
  · exact hview ▸ h.viewID
  · exact hcrashed.trans h.running
  · exact h.ledger.same hstill.currentState_eq hstill.committedMsgs_eq
  · rw [hstill.currentState_eq]
    exact h.fits
  · exact fun m hmem => .inl (hkept m hmem)
  · rw [hstill.currentState_eq]
    exact fun m hm => hm
  · rw [hstill.currentState_eq]
    exact fun m hm => .inl hm
  · intro m hm
    cases hm

theorem Faultless.routeMsg (h : Faultless digest request nodeID node)
    (hidle : node.delivering = []) {msg : Msg H} (hmsg : Proper digest request nodeID msg) :
    Moved digest request nodeID node (node.routeMsg msg) none ∧
      msg ∈ (node.routeMsg msg).msgs := by
  obtain ⟨htyped, hmsgs⟩ := routeMsg_typed h.typed hidle hmsg.known
  obtain ⟨buffer, batches, hroute⟩ := routeMsg_eq node msg
  have hstill : Still node (node.routeMsg msg) := by
    rw [hroute]
    exact ⟨rfl, rfl, rfl⟩
  refine ⟨h.still hstill ?_ ?_ htyped (h.orderly.routeMsg hidle msg) ?_ ?_, ?_⟩
  · rw [hroute]
  · rw [hroute]
  · intro m hmem
    rcases (hmsgs m).mp hmem with hmem | rfl
    · exact h.proper m hmem
    · exact hmsg
  · exact fun m hmem => (hmsgs m).mpr (.inl hmem)
  · exact (hmsgs msg).mpr (.inr rfl)

theorem Faultless.routeMsgWhenAlarmed (h : Faultless digest request nodeID node)
    (hidle : node.delivering = []) :
    Moved digest request nodeID node node.routeMsgWhenAlarmed none := by
  obtain ⟨htyped, hmsgs⟩ := routeMsgWhenAlarmed_typed h.typed hidle
  obtain ⟨batches, hroute⟩ := routeMsgWhenAlarmed_eq node
  have hstill : Still node node.routeMsgWhenAlarmed := by
    rw [hroute]
    exact ⟨rfl, rfl, rfl⟩
  refine h.still hstill ?_ ?_ htyped h.orderly.routeMsgWhenAlarmed ?_ ?_
  · rw [hroute]
  · rw [hroute]
  · exact fun m hmem => h.proper m ((hmsgs m).mp hmem)
  · exact fun m hmem => (hmsgs m).mpr hmem

theorem Faultless.delivered (h : Faultless digest request nodeID node) {batch : Delivery H}
    {batches : List (Delivery H)} (hdelivering : node.delivering = batch :: batches)
    (hidle : node.resolving = .idle) :
    Moved digest request nodeID node
      { node with delivering := batches, resolving := receive batch } none := by
  obtain ⟨htyped, hmsgs⟩ := delivered_typed h.typed hdelivering hidle
  refine h.still ⟨rfl, rfl, rfl⟩ rfl rfl htyped (h.orderly.delivered hdelivering) ?_ ?_
  · exact fun m hmem => h.proper m ((hmsgs m).mp hmem)
  · exact fun m hmem => (hmsgs m).mpr hmem

theorem Faultless.createStateForNewConsensus (h : Faultless digest request nodeID node)
    (hstate : node.currentState = none) (batch : Resolving H) :
    ({ node with resolving := batch } : Node H).createStateForNewConsensus =
      .ok { node with
        resolving := batch
        currentState := some (createState 10000000000 (-1)) } := by
  have hlast : ({ node with resolving := batch } : Node H).lastSequenceID = -1 := by
    rw [Node.lastSequenceID]
    simp [h.ledger.before (by simp [stage, hstate])]
  unfold Node.createStateForNewConsensus
  rw [hlast, if_neg (by simp [hstate])]
  simp only [h.viewID]

theorem Faultless.vote_eq (h : Faultless digest request nodeID node) {msg : VoteMsg H}
    (hhead : node.resolving.head = some (.vote msg)) {msgType : MsgType}
    (htype : msg.msgType = msgType) : msg = voteOf digest request msg.nodeID msgType := by
  obtain ⟨_, hvote⟩ := h.proper (.vote msg) (mem_msgs_of_head hhead)
  rwa [htype] at hvote

theorem currentState_of_stage {first second : Stage}
    (h : node.stage = some first ∨ node.stage = some second) :
    ∃ state, node.currentState = some state ∧
      (state.currentStage = first ∨ state.currentStage = second) := by
  rcases h with h | h
  · obtain ⟨state, hstate, hstage⟩ := Option.map_eq_some_iff.mp h
    exact ⟨state, hstate, .inl hstage⟩
  · obtain ⟨state, hstate, hstage⟩ := Option.map_eq_some_iff.mp h
    exact ⟨state, hstate, .inr hstage⟩

section Resolver

variable [DecidableEq H] {posted : List (Posted H)}

/-- A look at the next message, which the new state has taken in. -/
theorem Faultless.turn (h : Faultless digest request nodeID node)
    (hturn : Turn digest node node' posted) {state : Option (State H)}
    {committedMsgs : List RequestMsg}
    (hnode : node' = ⟨node.nodeID, node.nodeTable, node.view, state, committedMsgs,
      node.msgBuffer, node.delivering, node.resolving.next, node.crashed⟩)
    (hfits : ∀ state', state = some state' → Fits request state')
    (hhead : ∀ m, node.resolving.head = some m → Absorbed state m)
    (habsorbed : ∀ m, Absorbed node.currentState m → Absorbed state m)
    (howes : ∀ m, Owes digest request nodeID state m →
      Owes digest request nodeID node.currentState m ∨ broadcastOf posted = some m)
    (hposts : ∀ m, broadcastOf posted = some m → Owes digest request nodeID state m ∧
      state.map (·.currentStage) ≠ some .committed) :
    Moved digest request nodeID node node' (broadcastOf posted) := by
  obtain ⟨htyped, hmsgs⟩ := resolved_typed h.typed hnode
  have horderly := h.orderly.turn hturn
  have hledger := h.ledger.turn h.orderly hturn
  have hstate : node'.currentState = state := by rw [hnode]
  refine ⟨⟨?_, ?_, ?_, htyped, horderly, hledger, ?_, ?_⟩, ?_, ?_, ?_, ?_⟩
  · rw [hnode]
    exact h.nodeID_eq
  · rw [hnode]
    exact h.viewID
  · rw [hnode]
    exact h.running
  · rw [hstate]
    exact hfits
  · exact fun m hmem => h.proper m ((hmsgs m).mpr (.inr hmem))
  · intro m hmem
    rw [hstate]
    exact ((hmsgs m).mp hmem).symm.imp_right (hhead m)
  · rw [hstate]
    exact habsorbed
  · rw [hstate]
    exact howes
  · rw [stage, hstate]
    exact hposts

/-- A look at a message that the state has taken in before. -/
theorem Faultless.kept (h : Faultless digest request nodeID node)
    (hhead : ∀ m, node.resolving.head = some m → Absorbed node.currentState m) :
    Moved digest request nodeID node { node with resolving := node.resolving.next } none := by
  refine h.turn (.kept : Turn digest node _ []) rfl h.fits hhead (fun m hm => hm) ?_ ?_
  · exact fun m hm => .inl hm
  · intro m hm
    cases hm

/-- The consensus begins with a message to all others. -/
theorem Faultless.begun (h : Faultless digest request nodeID node)
    (hturn : Turn digest node node' posted) (hstate : node.currentState = none)
    (hnode : node' = ⟨node.nodeID, node.nodeTable, node.view, some (freshState request),
      node.committedMsgs, node.msgBuffer, node.delivering, node.resolving.next, node.crashed⟩)
    (hhead : ∀ m, node.resolving.head = some m → Absorbed (some (freshState request)) m)
    (hposted : ∀ m, broadcastOf posted = some m ↔
      m = if nodeID = primary then .prePrepare (prePrepareOf digest request)
        else .vote (voteOf digest request nodeID .prepareMsg)) :
    Moved digest request nodeID node node' (broadcastOf posted) := by
  have howes : ∀ m, Owes digest request nodeID (some (freshState request)) m ↔
      broadcastOf posted = some m := by
    intro m
    rw [hposted]
    cases m with
    | request msg => simp only [Owes, false_iff]; split <;> simp
    | prePrepare msg => simp only [Owes]; split <;> simp_all
    | vote msg => simp only [Owes]; split <;> simp_all [freshState]
  refine h.turn hturn hnode ?_ hhead ?_ ?_ ?_
  · intro state hfresh
    obtain rfl := Option.some.inj hfresh
    exact .freshState
  · rw [hstate]
    exact fun m hm => absurd hm not_absorbed_none
  · exact fun m hm => .inr ((howes m).mp hm)
  · intro m hm
    refine ⟨(howes m).mpr hm, ?_⟩
    simp [freshState]

theorem Faultless.getReq (h : Faultless digest request nodeID node) {now : Int}
    {msg : RequestMsg} {msgs : List RequestMsg}
    (hresolving : node.resolving = .requests (msg :: msgs))
    (hget : { node with resolving := .requests msgs }.getReq digest msg now = (node', posted))
    (hadopted : ∀ state, node'.currentState = some state →
      state.msgLogs.reqMsg = some request) :
    Moved digest request nodeID node node' (broadcastOf posted) := by
  have hturn := getReq_turn digest now hresolving
  rw [hget] at hturn
  have hnext : node.resolving.next = .requests msgs := by rw [hresolving]; rfl
  have hhead : node.resolving.head = some (.request msg) := by rw [hresolving]; rfl
  have hprimary : nodeID = primary :=
    h.proper (.request msg) (mem_msgs_of_head hhead)
  cases hstate : node.currentState with
  | some state =>
      simp only [Node.getReq, Node.createStateForNewConsensus, hstate, Option.isSome_some,
        if_true, Prod.mk.injEq] at hget
      obtain ⟨rfl, rfl⟩ := hget
      rw [← hnext, ← hstate]
      refine h.kept ?_
      intro m hm
      obtain rfl := Option.some.inj (hhead.symm.trans hm)
      rw [hstate]
      exact Option.some_ne_none _
  | none =>
      simp only [Node.getReq, h.createStateForNewConsensus hstate, startConsensus_createState,
        Prod.mk.injEq] at hget
      obtain ⟨rfl, rfl⟩ := hget
      obtain rfl := Option.some.inj (hadopted _ rfl)
      refine h.begun hturn hstate ?_ ?_ ?_
      · rw [hnext]
      · intro m hm
        obtain rfl := Option.some.inj (hhead.symm.trans hm)
        exact Option.some_ne_none _
      · intro m
        rw [if_pos hprimary]
        exact ⟨fun hm => (Option.some.inj hm).symm, fun hm => congrArg some hm.symm⟩

theorem Faultless.getPrePrepare (h : Faultless digest request nodeID node)
    {msg : PrePrepareMsg H} {msgs : List (PrePrepareMsg H)}
    (hresolving : node.resolving = .prePrepares (msg :: msgs))
    (hget : { node with resolving := .prePrepares msgs }.getPrePrepare digest msg =
      (node', posted)) :
    Moved digest request nodeID node node' (broadcastOf posted) := by
  have hturn := getPrePrepare_turn digest hresolving
  rw [hget] at hturn
  have hnext : node.resolving.next = .prePrepares msgs := by rw [hresolving]; rfl
  have hhead : node.resolving.head = some (.prePrepare msg) := by rw [hresolving]; rfl
  obtain ⟨hbackup, rfl⟩ := h.proper (.prePrepare msg) (mem_msgs_of_head hhead)
  have hnamed : (prePrepareOf digest request).requestMsg ≠ none := Option.some_ne_none _
  unfold Node.getPrePrepare at hget
  rw [if_neg hnamed] at hget
  cases hstate : node.currentState with
  | some state =>
      simp only [Node.createStateForNewConsensus, hstate, Option.isSome_some,
        if_true, Prod.mk.injEq] at hget
      obtain ⟨rfl, rfl⟩ := hget
      rw [← hnext, ← hstate]
      refine h.kept ?_
      intro m hm
      obtain rfl := Option.some.inj (hhead.symm.trans hm)
      rw [hstate]
      exact Option.some_ne_none _
  | none =>
      simp only [h.createStateForNewConsensus hstate, prePrepare_createState,
        Prod.mk.injEq] at hget
      obtain ⟨rfl, rfl⟩ := hget
      refine h.begun hturn hstate ?_ ?_ ?_
      · rw [hnext]
      · intro m hm
        obtain rfl := Option.some.inj (hhead.symm.trans hm)
        exact Option.some_ne_none _
      · intro m
        rw [if_neg hbackup, ← h.nodeID_eq]
        exact ⟨fun hm => (Option.some.inj hm).symm, fun hm => congrArg some hm.symm⟩

theorem Faultless.getPrepare (h : Faultless digest request nodeID node)
    {msg : VoteMsg H} {msgs : List (VoteMsg H)}
    (hresolving : node.resolving = .prepares (msg :: msgs))
    (hget : { node with resolving := .prepares msgs }.getPrepare digest msg =
      (node', posted)) :
    Moved digest request nodeID node node' (broadcastOf posted) := by
  have hturn := getPrepare_turn digest hresolving
  rw [hget] at hturn
  have hnext : node.resolving.next = .prepares msgs := by rw [hresolving]; rfl
  have hhead : node.resolving.head = some (.vote msg) := by rw [hresolving]; rfl
  have htyped := h.typed.pipeline _ List.mem_cons_self
  have hawaits := h.orderly.resolving
  rw [hresolving] at htyped hawaits
  have hvote := h.vote_eq hhead (htyped msg List.mem_cons_self)
  obtain ⟨state, hstate, hstage⟩ := currentState_of_stage hawaits
  obtain ⟨stage, hfits, hprepare⟩ :=
    (h.fits state hstate).prepare digest msg.nodeID hstage
  rw [← hvote] at hfits hprepare
  have hcounted : Absorbed (some { state.countPrepare msg with currentStage := stage })
      (.vote msg : Msg H) := by
    refine ⟨_, rfl, fun _ => ?_, fun htype => ?_⟩
    · rw [← AList.mem_keys, State.countPrepare, AList.mem_insert]
      exact .inl rfl
    · rw [htyped msg List.mem_cons_self] at htype
      cases htype
  have habsorbed : ∀ m, Absorbed node.currentState m →
      Absorbed (some { state.countPrepare msg with currentStage := stage }) m := by
    intro m hm
    rw [hstate] at hm
    exact hm.mono (keys_subset_insert _ _ _) (List.Subset.refl _)
  have hnew : node' = ⟨node.nodeID, node.nodeTable, node.view,
        some { state.countPrepare msg with currentStage := stage }, node.committedMsgs,
        node.msgBuffer, node.delivering, node.resolving.next, node.crashed⟩ ∧
      (stage = state.currentStage ∧ posted = [] ∨
        stage = .prepared ∧ posted = [.vote (voteOf digest request nodeID .commitMsg)]) := by
    rw [hnext, ← h.nodeID_eq]
    rcases hprepare with ⟨hsame, hprepare⟩ | ⟨hprepared, hprepare⟩
    · simp only [Node.getPrepare, hstate, hprepare, Prod.mk.injEq] at hget
      exact ⟨hget.1.symm, .inl ⟨hsame, hget.2.symm⟩⟩
    · simp only [Node.getPrepare, hstate, hprepare, Prod.mk.injEq] at hget
      exact ⟨hget.1.symm, .inr ⟨hprepared, hget.2.symm⟩⟩
  obtain ⟨hnode, hposted⟩ := hnew
  refine h.turn hturn hnode ?_ ?_ habsorbed ?_ ?_
  · intro state' hstate'
    obtain rfl := Option.some.inj hstate'
    exact hfits
  · intro m hm
    obtain rfl := Option.some.inj (hhead.symm.trans hm)
    exact hcounted
  · intro m hm
    rw [hstate]
    rcases hm.back with hm | ⟨rfl, hvoted⟩
    · exact .inl hm
    · rcases hposted with ⟨rfl, _⟩ | ⟨_, rfl⟩
      · exact .inl (.inr ⟨⟨state, rfl, hvoted⟩, rfl⟩)
      · exact .inr rfl
  · intro m hm
    rcases hposted with ⟨_, rfl⟩ | ⟨rfl, rfl⟩
    · cases hm
    · obtain rfl := Option.some.inj hm
      exact ⟨.inr ⟨⟨_, rfl, .inl rfl⟩, rfl⟩, by simp⟩

theorem Faultless.getCommit (h : Faultless digest request nodeID node)
    {msg : VoteMsg H} {msgs : List (VoteMsg H)}
    (hresolving : node.resolving = .commits (msg :: msgs))
    (hget : { node with resolving := .commits msgs }.getCommit digest msg =
      (node', posted)) :
    Moved digest request nodeID node node' (broadcastOf posted) := by
  have hturn := getCommit_turn digest hresolving
  rw [hget] at hturn
  have hnext : node.resolving.next = .commits msgs := by rw [hresolving]; rfl
  have hhead : node.resolving.head = some (.vote msg) := by rw [hresolving]; rfl
  have htyped := h.typed.pipeline _ List.mem_cons_self
  have hawaits := h.orderly.resolving
  rw [hresolving] at htyped hawaits
  have hvote := h.vote_eq hhead (htyped msg List.mem_cons_self)
  obtain ⟨state, hstate, hstage⟩ := currentState_of_stage hawaits
  obtain ⟨stage, result, hfits, hresult, hcommit⟩ :=
    (h.fits state hstate).commit digest msg.nodeID hstage
  rw [← hvote] at hfits hcommit
  have hcounted : Absorbed (some { state.countCommit msg with currentStage := stage })
      (.vote msg : Msg H) := by
    refine ⟨_, rfl, fun htype => ?_, fun _ => ?_⟩
    · rw [htyped msg List.mem_cons_self] at htype
      cases htype
    · rw [← AList.mem_keys, State.countCommit, AList.mem_insert]
      exact .inl rfl
  have habsorbed : ∀ m, Absorbed node.currentState m →
      Absorbed (some { state.countCommit msg with currentStage := stage }) m := by
    intro m hm
    rw [hstate] at hm
    exact hm.mono (List.Subset.refl _) (keys_subset_insert _ _ _)
  obtain ⟨committedMsgs, hnode, hposted⟩ : ∃ committedMsgs,
      node' = ⟨node.nodeID, node.nodeTable, node.view,
        some { state.countCommit msg with currentStage := stage }, committedMsgs,
        node.msgBuffer, node.delivering, node.resolving.next, node.crashed⟩ ∧
      broadcastOf posted = none := by
    rw [hnext]
    rcases hresult with rfl | ⟨reply, rfl⟩
    · simp only [Node.getCommit, hstate, hcommit, Prod.mk.injEq] at hget
      exact ⟨_, hget.1.symm, by rw [← hget.2]; rfl⟩
    · simp only [Node.getCommit, hstate, hcommit, Prod.mk.injEq] at hget
      exact ⟨_, hget.1.symm, by rw [← hget.2]; rfl⟩
  refine h.turn hturn hnode ?_ ?_ habsorbed ?_ ?_
  · intro state' hstate'
    obtain rfl := Option.some.inj hstate'
    exact hfits
  · intro m hm
    obtain rfl := Option.some.inj (hhead.symm.trans hm)
    exact hcounted
  · intro m hm
    rw [hstate]
    rcases hm.back with hm | ⟨rfl, _⟩
    · exact .inl hm
    · exact .inl (.inr ⟨⟨state, rfl, hstage⟩, rfl⟩)
  · intro m hm
    rw [hposted] at hm
    cases hm

theorem Faultless.resolveMsg (h : Faultless digest request nodeID node) {now : Int}
    (hresolve : node.resolveMsg digest now = some (node', posted))
    (hadopted : nodeID = primary → ∀ state, node'.currentState = some state →
      state.msgLogs.reqMsg = some request) :
    Moved digest request nodeID node node' (broadcastOf posted) := by
  -- an empty batch ends, and the resolver is idle
  have hended (hnext : node.resolving.next = .idle) (hhead : node.resolving.head = none)
      (hend : some ({ node with resolving := .idle }, []) = some (node', posted)) :
      Moved digest request nodeID node node' (broadcastOf posted) := by
    obtain ⟨rfl, rfl⟩ := Prod.mk.inj (Option.some.inj hend)
    rw [← hnext]
    refine h.kept ?_
    intro m hm
    rw [hhead] at hm
    cases hm
  unfold Node.resolveMsg at hresolve
  split at hresolve
  · cases hresolve
  · rename_i hresolving
    exact hended (by rw [hresolving]; rfl) (by rw [hresolving]; rfl) hresolve
  · rename_i msg msgs hresolving
    refine h.getReq hresolving (Option.some.inj hresolve) (hadopted ?_)
    exact h.proper (.request msg) (mem_msgs_of_head (by rw [hresolving]; rfl))
  · rename_i hresolving
    exact hended (by rw [hresolving]; rfl) (by rw [hresolving]; rfl) hresolve
  · rename_i msg msgs hresolving
    exact h.getPrePrepare hresolving (Option.some.inj hresolve)
  · rename_i hresolving
    exact hended (by rw [hresolving]; rfl) (by rw [hresolving]; rfl) hresolve
  · rename_i msg msgs hresolving
    exact h.getPrepare hresolving (Option.some.inj hresolve)
  · rename_i hresolving
    exact hended (by rw [hresolving]; rfl) (by rw [hresolving]; rfl) hresolve
  · rename_i msg msgs hresolving
    exact h.getCommit hresolving (Option.some.inj hresolve)

end Resolver

end Node

end BlockchainTutorial.Pbft
