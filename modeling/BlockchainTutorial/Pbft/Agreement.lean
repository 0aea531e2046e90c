import Mathlib.Data.Finset.Option
import BlockchainTutorial.Lib.Quorum
import BlockchainTutorial.Pbft.Network

namespace BlockchainTutorial.Pbft

variable {H : Type}

/-! Agreement. A node adopts one request and votes for no other; a node that commits
has votes of two others for its request; two such nodes share an honest voter. -/

/-! The votes that a node holds. -/

def Resolving.voteMsgs : Resolving H → List (VoteMsg H)
  | .prepares msgs => msgs
  | .commits msgs => msgs
  | _ => []

def Delivery.voteMsgs : Delivery H → List (VoteMsg H)
  | .votes msgs => msgs
  | _ => []

theorem Resolving.mem_voteMsgs_next {batch : Resolving H} {msg : VoteMsg H}
    (h : msg ∈ batch.next.voteMsgs) : msg ∈ batch.voteMsgs := by
  unfold Resolving.next at h
  split at h
  · cases h
  · cases h
  · exact List.mem_cons_of_mem _ h
  · exact List.mem_cons_of_mem _ h
  · cases h

theorem Node.mem_voteMsgs_receive {batch : Delivery H} {msg : VoteMsg H}
    (h : msg ∈ (receive batch).voteMsgs) : msg ∈ batch.voteMsgs := by
  unfold receive at h
  split at h
  · cases h
  · cases h
  · cases h
  · split at h
    · exact h
    · exact h
    · cases h

namespace Node

structure Holds (P : VoteMsg H → Prop) (node : Node H) : Prop where
  prepareBuffer : ∀ msg ∈ node.msgBuffer.prepareMsgs, P msg
  commitBuffer : ∀ msg ∈ node.msgBuffer.commitMsgs, P msg
  delivering : ∀ batch ∈ node.delivering, ∀ msg ∈ batch.voteMsgs, P msg
  resolving : ∀ msg ∈ node.resolving.voteMsgs, P msg

variable {P Q : VoteMsg H → Prop} {node node' : Node H} {posted : List (Posted H)}

theorem Holds.mono (h : Holds P node) (himp : ∀ msg, P msg → Q msg) : Holds Q node :=
  ⟨fun msg hmem => himp msg (h.prepareBuffer msg hmem),
    fun msg hmem => himp msg (h.commitBuffer msg hmem),
    fun batch hbatch msg hmem => himp msg (h.delivering batch hbatch msg hmem),
    fun msg hmem => himp msg (h.resolving msg hmem)⟩

theorem holds_append {msgs : List (VoteMsg H)} {msg : VoteMsg H}
    (hmsgs : ∀ m ∈ msgs, P m) (hmsg : P msg) : ∀ m ∈ msgs ++ [msg], P m := by
  intro m hmem
  rcases List.mem_append.mp hmem with hmem | hmem
  · exact hmsgs m hmem
  · rw [List.mem_singleton.mp hmem]
    exact hmsg

theorem holds_batch {msgs : List (VoteMsg H)} (hmsgs : ∀ m ∈ msgs, P m) :
    ∀ batch ∈ [Delivery.votes msgs], ∀ m ∈ batch.voteMsgs, P m := by
  intro batch hbatch
  rw [List.mem_singleton.mp hbatch]
  exact hmsgs

theorem Holds.routeMsg (h : Holds P node) {msg : Msg H}
    (hentered : ∀ vote, msg = .vote vote → P vote) : Holds P (node.routeMsg msg) := by
  unfold Node.routeMsg
  cases msg with
  | request msg =>
      dsimp only
      split
      · refine ⟨h.prepareBuffer, h.commitBuffer, ?_, h.resolving⟩
        simp [Delivery.voteMsgs]
      · exact ⟨h.prepareBuffer, h.commitBuffer, h.delivering, h.resolving⟩
  | prePrepare msg =>
      dsimp only
      split
      · refine ⟨h.prepareBuffer, h.commitBuffer, ?_, h.resolving⟩
        simp [Delivery.voteMsgs]
      · exact ⟨h.prepareBuffer, h.commitBuffer, h.delivering, h.resolving⟩
  | vote msg =>
      have hprepares := holds_append h.prepareBuffer (hentered msg rfl)
      have hcommits := holds_append h.commitBuffer (hentered msg rfl)
      cases htype : msg.msgType with
      | prepareMsg =>
          simp only [htype]
          split
          · exact ⟨hprepares, h.commitBuffer, h.delivering, h.resolving⟩
          · refine ⟨?_, h.commitBuffer, holds_batch hprepares, h.resolving⟩
            simp
      | commitMsg =>
          simp only [htype]
          split
          · exact ⟨h.prepareBuffer, hcommits, h.delivering, h.resolving⟩
          · refine ⟨h.prepareBuffer, ?_, holds_batch hcommits, h.resolving⟩
            simp
      | unknown code =>
          simp only [htype]
          exact h

theorem Holds.routeMsgWhenAlarmed (h : Holds P node) : Holds P node.routeMsgWhenAlarmed := by
  unfold Node.routeMsgWhenAlarmed
  split
  · refine ⟨h.prepareBuffer, h.commitBuffer, ?_, h.resolving⟩
    intro batch hbatch msg hmsg
    rcases List.mem_append.mp hbatch with hbatch | hbatch
    · split at hbatch
      · rw [List.mem_singleton.mp hbatch] at hmsg
        cases hmsg
      · cases hbatch
    · split at hbatch
      · rw [List.mem_singleton.mp hbatch] at hmsg
        cases hmsg
      · cases hbatch
  · split
    · exact ⟨h.prepareBuffer, h.commitBuffer, holds_batch h.prepareBuffer, h.resolving⟩
    · exact h
  · split
    · exact ⟨h.prepareBuffer, h.commitBuffer, holds_batch h.commitBuffer, h.resolving⟩
    · exact h
  · exact h

theorem Holds.next (h : Holds P node) {state : Option (State H)}
    {committedMsgs : List RequestMsg} {crashed : Bool} :
    Holds P ⟨node.nodeID, node.nodeTable, node.view, state, committedMsgs, node.msgBuffer,
      node.delivering, node.resolving.next, crashed⟩ :=
  ⟨h.prepareBuffer, h.commitBuffer, h.delivering,
    fun msg hmem => h.resolving msg (Resolving.mem_voteMsgs_next hmem)⟩

/-! What a step of one node keeps. -/

section Digest

variable [DecidableEq H] {digest : Option RequestMsg → H} {a : NodeAction H}

theorem Acted.nodeID_eq (hacted : Acted digest node a node' posted) :
    node'.nodeID = node.nodeID := by
  rcases hacted.turn_or_still with ⟨now, _, hturn⟩ | ⟨_, hstill⟩
  · cases hturn <;> rfl
  · exact hstill.nodeID_eq

theorem Acted.mem_committedMsgs (hacted : Acted digest node a node' posted)
    {request : RequestMsg} (h : request ∈ node.committedMsgs) :
    request ∈ node'.committedMsgs := by
  rcases hacted.turn_or_still with ⟨now, _, hturn⟩ | ⟨_, hstill⟩
  · cases hturn with
    | committed => exact List.mem_append_left _ h
    | _ => exact h
  · rwa [hstill.committedMsgs_eq]

theorem Acted.adopted (hacted : Acted digest node a node' posted) {state : State H}
    (h : node.currentState = some state) : ∃ state', node'.currentState = some state' ∧
      state'.msgLogs.reqMsg = state.msgLogs.reqMsg := by
  rcases hacted.turn_or_still with ⟨now, _, hturn⟩ | ⟨_, hstill⟩
  · cases hturn with
    | kept | crashed => exact ⟨state, h, rfl⟩
    | started request now hstate => rw [hstate] at h; cases h
    | refused request hstate => rw [hstate] at h; cases h
    | accepted msg request hstate hdigest => rw [hstate] at h; cases h
    | countedPrepare _ msg msgs hresolving hstate hdigest
    | prepared _ msg msgs hresolving hstate hdigest =>
        obtain rfl := Option.some.inj (hstate.symm.trans h)
        exact ⟨_, rfl, rfl⟩
    | countedCommit _ msg msgs hresolving hstate hcommitted =>
        obtain rfl := Option.some.inj (hstate.symm.trans h)
        exact ⟨_, rfl, rfl⟩
    | committed _ msg msgs reqMsg reply hresolving hstate hverify hcommitted hrequest =>
        obtain rfl := Option.some.inj (hstate.symm.trans h)
        exact ⟨_, rfl, rfl⟩
  · exact ⟨state, hstill.currentState_eq.trans h, rfl⟩

theorem Acted.voted (hacted : Acted digest node a node' posted) {msg : VoteMsg H}
    (h : .vote msg ∈ posted) : msg.nodeID = node.nodeID ∧
      ∃ state, node'.currentState = some state ∧ msg.digest = digest state.msgLogs.reqMsg := by
  rcases hacted.turn_or_still with ⟨now, _, hturn⟩ | ⟨rfl, _⟩
  · cases hturn with
    | kept | crashed | refused | countedPrepare | countedCommit => cases h
    | started | committed => cases List.mem_singleton.mp h
    | accepted prePrepare request hstate hdigest =>
        cases List.mem_singleton.mp h
        exact ⟨rfl, _, rfl, hdigest⟩
    | prepared state vote msgs hresolving hstate hdigest =>
        cases List.mem_singleton.mp h
        exact ⟨rfl, _, rfl, hdigest⟩
  · cases h

theorem Holds.acted (h : Holds P node) (hacted : Acted digest node a node' posted)
    (hentered : ∀ msg, a = .entrance (.vote msg) → P msg) : Holds P node' := by
  cases hacted with
  | routed msg hdelivering =>
      refine h.routeMsg ?_
      rintro vote rfl
      exact hentered vote rfl
  | alarmed hdelivering => exact h.routeMsgWhenAlarmed
  | delivered batch batches hdelivering hresolving =>
      refine ⟨h.prepareBuffer, h.commitBuffer, ?_, ?_⟩
      · intro next hmem
        exact h.delivering next (by rw [hdelivering]; exact List.mem_cons_of_mem _ hmem)
      · intro msg hmem
        exact h.delivering batch (by rw [hdelivering]; exact List.mem_cons_self) msg
          (mem_voteMsgs_receive hmem)
  | resolved now node' posted hturn => cases hturn <;> exact h.next

end Digest

/-- The votes to prepare that a state counted have `P` and are for its request. -/
def Counted (digest : Option RequestMsg → H) (P : VoteMsg H → Prop) (state : State H) : Prop :=
  ∀ nodeID msg, state.msgLogs.prepareMsgs.lookup nodeID = some msg →
    msg.nodeID = nodeID ∧ P msg ∧ msg.digest = digest state.msgLogs.reqMsg

theorem Counted.countPrepare {digest : Option RequestMsg → H} {state : State H}
    (h : Counted digest P state) {msg : VoteMsg H} (hmsg : P msg)
    (hdigest : msg.digest = digest state.msgLogs.reqMsg) :
    Counted digest P (state.countPrepare msg) := by
  intro nodeID other hlookup
  by_cases hne : nodeID = msg.nodeID
  · subst hne
    rw [State.countPrepare, AList.lookup_insert, Option.some.injEq] at hlookup
    subst hlookup
    exact ⟨rfl, hmsg, hdigest⟩
  · rw [State.countPrepare, AList.lookup_insert_ne hne] at hlookup
    exact h nodeID other hlookup

/-- A node that commits has the votes of two others for the request. -/
structure Vouched (digest : Option RequestMsg → H) (P : VoteMsg H → Prop)
    (node : Node H) : Prop where
  holds : Holds P node
  counted : ∀ state, node.currentState = some state → Counted digest P state
  ledger : ∀ request ∈ node.committedMsgs, ∃ state, node.currentState = some state ∧
    state.msgLogs.reqMsg = some request ∧ 2 * f ≤ state.msgLogs.prepareMsgs.keys.length

variable {digest : Option RequestMsg → H}

theorem vouched_newNode (nodeID : String) : Vouched digest P (newNode nodeID) := by
  refine ⟨⟨?_, ?_, ?_, ?_⟩, ?_, ?_⟩ <;> simp [newNode, Resolving.voteMsgs]

theorem Vouched.mono (h : Vouched digest P node) (himp : ∀ msg, P msg → Q msg) :
    Vouched digest Q node := by
  refine ⟨h.holds.mono himp, ?_, h.ledger⟩
  intro state hstate nodeID msg hlookup
  obtain ⟨hnodeID, hmsg, hdigest⟩ := h.counted state hstate nodeID msg hlookup
  exact ⟨hnodeID, himp msg hmsg, hdigest⟩

/-- A node whose state moves on with the votes it counted, and commits its request. -/
theorem Vouched.moved (h : Vouched digest P node) (hholds : Holds P node')
    {state state' : State H} (hstate : node.currentState = some state)
    (hstate' : node'.currentState = some state')
    (hrequest : state'.msgLogs.reqMsg = state.msgLogs.reqMsg)
    (hcounted : Counted digest P state')
    (hmore : state.msgLogs.prepareMsgs.keys.length ≤ state'.msgLogs.prepareMsgs.keys.length)
    (hledger : ∀ request ∈ node'.committedMsgs, request ∈ node.committedMsgs ∨
      state.msgLogs.reqMsg = some request ∧ 2 * f ≤ state.msgLogs.prepareMsgs.keys.length) :
    Vouched digest P node' := by
  refine ⟨hholds, ?_, ?_⟩
  · intro other hother
    obtain rfl := Option.some.inj (hstate'.symm.trans hother)
    exact hcounted
  · intro request hmem
    refine ⟨state', hstate', ?_⟩
    rw [hrequest]
    rcases hledger request hmem with hold | ⟨hreq, hquorum⟩
    · obtain ⟨_, hsame, hreq, hquorum⟩ := h.ledger request hold
      obtain rfl := Option.some.inj (hstate.symm.trans hsame)
      exact ⟨hreq, Nat.le_trans hquorum hmore⟩
    · exact ⟨hreq, Nat.le_trans hquorum hmore⟩

theorem Vouched.created (h : Vouched digest P node) (hholds : Holds P node')
    (hstate : node.currentState = none) {state : State H}
    (hstate' : node'.currentState = some state)
    (hempty : state.msgLogs.prepareMsgs = ∅)
    (hmsgs : node'.committedMsgs = node.committedMsgs) : Vouched digest P node' := by
  refine ⟨hholds, ?_, ?_⟩
  · intro other hother nodeID msg hlookup
    obtain rfl := Option.some.inj (hstate'.symm.trans hother)
    rw [hempty, AList.lookup_empty] at hlookup
    cases hlookup
  · intro request hmem
    rw [hmsgs] at hmem
    obtain ⟨state, hsome, _⟩ := h.ledger request hmem
    rw [hstate] at hsome
    cases hsome

theorem Vouched.acted [DecidableEq H] {a : NodeAction H} (h : Vouched digest P node)
    (hacted : Acted digest node a node' posted)
    (hentered : ∀ msg, a = .entrance (.vote msg) → P msg) : Vouched digest P node' := by
  have hholds := h.holds.acted hacted hentered
  rcases hacted.turn_or_still with ⟨now, _, hturn⟩ | ⟨_, hstill⟩
  · cases hturn with
    | kept => exact ⟨hholds, h.counted, h.ledger⟩
    | crashed => exact ⟨hholds, h.counted, h.ledger⟩
    | started request now hstate => exact h.created hholds hstate rfl rfl rfl
    | refused request hstate => exact h.created hholds hstate rfl rfl rfl
    | accepted msg request hstate hdigest => exact h.created hholds hstate rfl rfl rfl
    | countedPrepare state msg msgs hresolving hstate hdigest
    | prepared state msg msgs hresolving hstate hdigest =>
        have hmsg : P msg := h.holds.resolving msg (by rw [hresolving]; exact List.mem_cons_self)
        exact h.moved hholds hstate rfl rfl
          ((h.counted state hstate).countPrepare hmsg hdigest)
          (State.length_keys_insert _ _ _) fun request hmem => .inl hmem
    | countedCommit state msg msgs hresolving hstate hcommitted =>
        exact h.moved hholds hstate rfl rfl (h.counted state hstate) (Nat.le_refl _)
          fun request hmem => .inl hmem
    | committed state msg msgs reqMsg reply hresolving hstate hverify hcommitted hrequest =>
        refine h.moved hholds hstate rfl rfl (h.counted state hstate) (Nat.le_refl _) ?_
        intro request hmem
        rcases List.mem_append.mp hmem with hmem | hmem
        · exact .inl hmem
        · obtain rfl := List.mem_singleton.mp hmem
          exact .inr ⟨hrequest, ((State.committed_eq_true _).mp hcommitted).2.1⟩
  · refine ⟨hholds, ?_, ?_⟩
    · rw [hstill.currentState_eq]
      exact h.counted
    · rw [hstill.currentState_eq, hstill.committedMsgs_eq]
      exact h.ledger

end Node

/-! The network. -/

namespace Network

variable {digest : Option RequestMsg → H} {byzantine : Option String}

/-- The votes of honest nodes are for the requests that they adopted. -/
structure Sound (digest : Option RequestMsg → H) (byzantine : Option String)
    (net : Network H) : Prop where
  named : ∀ nodeID, (net.nodes nodeID).nodeID = nodeID
  sent : ∀ msg ∈ net.sent, ∃ state, (net.nodes msg.nodeID).currentState = some state ∧
    msg.digest = digest state.msgLogs.reqMsg
  vouched : ∀ nodeID, Node.Vouched digest (net.Reaches byzantine nodeID) (net.nodes nodeID)

theorem sound_newNetwork : Sound digest byzantine newNetwork := by
  refine ⟨fun _ => rfl, ?_, fun nodeID => Node.vouched_newNode nodeID⟩
  intro msg hmem
  cases hmem

theorem Sound.step [DecidableEq H] {net net' : Network H} {a : NetworkAction H}
    (h : Sound digest byzantine net) (hstep : net.step digest byzantine a = some net') :
    Sound digest byzantine net' := by
  obtain ⟨node', posted, _, hacted, hentered, hself, hothers, hsent⟩ := step_cases hstep
  have hreaches : ∀ nodeID msg, net.Reaches byzantine nodeID msg →
      net'.Reaches byzantine nodeID msg := by
    rintro nodeID msg ⟨hmember, hother, hfrom⟩
    rw [Reaches, hsent]
    exact ⟨hmember, hother, hfrom.imp_right (List.mem_append_left _)⟩
  refine ⟨?_, ?_, ?_⟩
  · intro nodeID
    by_cases hnode : nodeID = a.nodeID
    · subst hnode
      rw [hself, hacted.nodeID_eq, h.named]
    · rw [hothers nodeID hnode, h.named]
  · intro msg hmem
    rw [hsent] at hmem
    rcases List.mem_append.mp hmem with hmem | hmem
    · obtain ⟨state, hstate, hdigest⟩ := h.sent msg hmem
      by_cases hnode : msg.nodeID = a.nodeID
      · obtain ⟨state', hstate', hrequest⟩ := hacted.adopted (hnode ▸ hstate)
        rw [hnode, hself]
        exact ⟨state', hstate', hrequest ▸ hdigest⟩
      · rw [hothers _ hnode]
        exact ⟨state, hstate, hdigest⟩
    · obtain ⟨hnode, state, hstate, hdigest⟩ := hacted.voted (mem_postedVotes.mp hmem)
      rw [hnode, h.named, hself]
      exact ⟨state, hstate, hdigest⟩
  · intro nodeID
    by_cases hnode : nodeID = a.nodeID
    · subst hnode
      rw [hself]
      exact ((h.vouched _).acted hacted hentered).mono (hreaches _)
    · rw [hothers nodeID hnode]
      exact (h.vouched nodeID).mono (hreaches _)

theorem run_sound [DecidableEq H] (run : NetworkRun digest byzantine) :
    ∀ k, k ≤ run.length → Sound digest byzantine (run.state k) :=
  run.invariant sound_newNetwork fun _ _ _ h hstep => h.step hstep

/-! Quorums. -/

def voters (nodeID : String) (state : State H) : Finset String :=
  insert nodeID state.msgLogs.prepareMsgs.keys.toFinset

theorem lookup_of_mem_keys {votes : VoteMap H} {nodeID : String} (h : nodeID ∈ votes.keys) :
    ∃ msg, votes.lookup nodeID = some msg :=
  Option.isSome_iff_exists.mp (AList.lookup_isSome.mpr (AList.mem_keys.mpr h))

section Voters

variable {net : Network H} {nodeID : String} {state : State H}

theorem voters_subset (h : Sound digest byzantine net) (hmember : nodeID ∈ nodeIDs)
    (hstate : (net.nodes nodeID).currentState = some state) :
    voters nodeID state ⊆ nodeIDs.toFinset := by
  intro voter hvoter
  rw [List.mem_toFinset]
  rcases Finset.mem_insert.mp hvoter with rfl | hvoter
  · exact hmember
  · obtain ⟨msg, hlookup⟩ := lookup_of_mem_keys (List.mem_toFinset.mp hvoter)
    obtain ⟨rfl, hreaches, _⟩ := (h.vouched nodeID).counted state hstate voter msg hlookup
    exact hreaches.1

theorem card_voters (h : Sound digest byzantine net)
    (hstate : (net.nodes nodeID).currentState = some state) :
    (voters nodeID state).card = state.msgLogs.prepareMsgs.keys.length + 1 := by
  unfold voters
  rw [Finset.card_insert_of_notMem,
    List.toFinset_card_of_nodup state.msgLogs.prepareMsgs.keys_nodup]
  intro hvoter
  obtain ⟨msg, hlookup⟩ := lookup_of_mem_keys (List.mem_toFinset.mp hvoter)
  obtain ⟨hnode, hreaches, _⟩ := (h.vouched nodeID).counted state hstate nodeID msg hlookup
  exact hreaches.2.1 hnode

theorem adopted_of_voter (h : Sound digest byzantine net)
    (hstate : (net.nodes nodeID).currentState = some state) {voter : String}
    (hvoter : voter ∈ voters nodeID state) (hhonest : byzantine ≠ some voter) :
    ∃ state', (net.nodes voter).currentState = some state' ∧
      digest state.msgLogs.reqMsg = digest state'.msgLogs.reqMsg := by
  rcases Finset.mem_insert.mp hvoter with rfl | hvoter
  · exact ⟨state, hstate, rfl⟩
  · obtain ⟨msg, hlookup⟩ := lookup_of_mem_keys (List.mem_toFinset.mp hvoter)
    obtain ⟨rfl, ⟨_, _, hfrom⟩, hdigest⟩ :=
      (h.vouched nodeID).counted state hstate voter msg hlookup
    obtain ⟨state', hstate', hvoted⟩ := h.sent msg (hfrom.resolve_left hhonest)
    exact ⟨state', hstate', hdigest.symm.trans hvoted⟩

end Voters

theorem Sound.agree {net : Network H} (h : Sound digest byzantine net)
    (hdigest : Function.Injective digest) {first second : String}
    (hfirst : Honest byzantine first) (hsecond : Honest byzantine second)
    {request request' : RequestMsg} (hrequest : request ∈ (net.nodes first).committedMsgs)
    (hrequest' : request' ∈ (net.nodes second).committedMsgs) : request = request' := by
  obtain ⟨state, hstate, hreq, hquorum⟩ := (h.vouched first).ledger request hrequest
  obtain ⟨state', hstate', hreq', hquorum'⟩ := (h.vouched second).ledger request' hrequest'
  have hcard : nodeIDs.toFinset.card + byzantine.toFinset.card <
      (voters first state).card + (voters second state').card := by
    have hbyzantine : byzantine.toFinset.card ≤ 1 := by
      rw [Option.card_toFinset]
      cases byzantine <;> simp
    have hmembers : nodeIDs.toFinset.card = 4 := by decide
    rw [card_voters h hstate, card_voters h hstate']
    simp only [f] at hquorum hquorum'
    omega
  obtain ⟨voter, hvoter, hvoter', hhonest⟩ := Lib.exists_common_of_card
    (voters_subset h hfirst.1 hstate) (voters_subset h hsecond.1 hstate') hcard
  have hhonest : byzantine ≠ some voter := fun hbad =>
    hhonest (Option.mem_toFinset.mpr hbad)
  obtain ⟨own, hown, hadopted⟩ := adopted_of_voter h hstate hvoter hhonest
  obtain ⟨own', hown', hadopted'⟩ := adopted_of_voter h hstate' hvoter' hhonest
  obtain rfl := Option.some.inj (hown.symm.trans hown')
  have hsame := hdigest (hadopted.trans hadopted'.symm)
  rw [hreq, hreq'] at hsame
  exact Option.some.inj hsame

theorem run_mem_committedMsgs [DecidableEq H] (run : NetworkRun digest byzantine)
    {nodeID : String} {request : RequestMsg} {k l : Nat} (hkl : k ≤ l) (hl : l ≤ run.length)
    (h : request ∈ ((run.state k).nodes nodeID).committedMsgs) :
    request ∈ ((run.state l).nodes nodeID).committedMsgs := by
  refine run.induct_from
    (P := fun l => request ∈ ((run.state l).nodes nodeID).committedMsgs) h ?_ l hkl hl
  intro j _ hj ih
  obtain ⟨node', posted, _, hacted, _, hself, hothers, _⟩ := step_cases (run.steps j hj)
  by_cases hnode : nodeID = (run.act j).nodeID
  · subst hnode
    rw [hself]
    exact hacted.mem_committedMsgs ih
  · rw [hothers nodeID hnode]
    exact ih

/-- All requests that honest nodes ever commit are the same. -/
theorem agreement [DecidableEq H] (hdigest : Function.Injective digest)
    (run : NetworkRun digest byzantine) {k l : Nat} (hk : k ≤ run.length)
    (hl : l ≤ run.length) {first second : String}
    (hfirst : Honest byzantine first) (hsecond : Honest byzantine second)
    {request request' : RequestMsg}
    (hrequest : request ∈ ((run.state k).nodes first).committedMsgs)
    (hrequest' : request' ∈ ((run.state l).nodes second).committedMsgs) :
    request = request' :=
  (run_sound run run.length (Nat.le_refl _)).agree hdigest hfirst hsecond
    (run_mem_committedMsgs run hk (Nat.le_refl _) hrequest)
    (run_mem_committedMsgs run hl (Nat.le_refl _) hrequest')

section Equivocation

/-! IBM is Byzantine: it votes for another request at MS, then for the request of
Apple at both nodes. -/

def agreedRequest : RequestMsg := ⟨0, "client", "op", 5⟩

def strangeRequest : RequestMsg := ⟨0, "client", "other", 5⟩

def resolveOne (nodeID : String) : List (NetworkAction (Option RequestMsg)) :=
  [⟨nodeID, .delivery⟩, ⟨nodeID, .resolve 5⟩, ⟨nodeID, .resolve 5⟩]

def voteAt (nodeID : String) (request : RequestMsg) (voter : String) (msgType : MsgType) :
    List (NetworkAction (Option RequestMsg)) :=
  ⟨nodeID, .entrance (.vote ⟨10000000000, 5, some request, voter, msgType⟩)⟩ ::
    resolveOne nodeID

def prePrepareAt (nodeID : String) : List (NetworkAction (Option RequestMsg)) :=
  ⟨nodeID, .entrance (.prePrepare ⟨10000000000, 5, some agreedRequest,
    some agreedRequest⟩)⟩ :: resolveOne nodeID

def equivocation : List (NetworkAction (Option RequestMsg)) :=
  ⟨"Apple", .entrance (.request { agreedRequest with sequenceID := 0 })⟩ ::
    resolveOne "Apple" ++ prePrepareAt "MS" ++ prePrepareAt "Google" ++
    voteAt "Apple" agreedRequest "MS" .prepareMsg ++
    voteAt "Apple" agreedRequest "IBM" .prepareMsg ++
    voteAt "MS" strangeRequest "IBM" .prepareMsg ++
    voteAt "MS" agreedRequest "Google" .prepareMsg ++
    voteAt "MS" agreedRequest "IBM" .prepareMsg ++
    voteAt "Apple" agreedRequest "MS" .commitMsg ++
    voteAt "Apple" agreedRequest "IBM" .commitMsg ++
    voteAt "MS" agreedRequest "Apple" .commitMsg ++
    voteAt "MS" agreedRequest "IBM" .commitMsg

def equivocationRun : NetworkRun (id : Option RequestMsg → _) (some "IBM") :=
  Lib.Run.ofActions equivocation (by decide +kernel)

theorem agreement_equivocation :
    agreedRequest ∈ ((equivocationRun.state 40).nodes "Apple").committedMsgs ∧
      agreedRequest ∈ ((equivocationRun.state 48).nodes "MS").committedMsgs ∧
      agreedRequest = agreedRequest := by
  have hfirst : agreedRequest ∈
      ((equivocationRun.state 40).nodes "Apple").committedMsgs := by decide +kernel
  have hsecond : agreedRequest ∈
      ((equivocationRun.state 48).nodes "MS").committedMsgs := by decide +kernel
  exact ⟨hfirst, hsecond, agreement Function.injective_id equivocationRun (by decide)
    (by decide) (by decide) (by decide) hfirst hsecond⟩

end Equivocation

end Network

end BlockchainTutorial.Pbft
