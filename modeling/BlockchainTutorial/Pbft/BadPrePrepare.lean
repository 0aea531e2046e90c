import BlockchainTutorial.Pbft.Turns

namespace BlockchainTutorial.Pbft

/-! A pre-prepare that does not verify. `GetPrePrepare` has made the state and stored
the request by then, and it returns its error without taking either back. -/

variable {H : Type}

/-- What a call of `GetPrePrepare` comes to. -/
inductive Returned (H : Type) where
  | panicked
  | error (err : String) (node : Node H)
  | done (node : Node H) (posted : List (Posted H))

namespace Node

section Digest

variable [DecidableEq H] (digest : Option RequestMsg → H)

def getPrePrepareReturned (node : Node H) (prePrepareMsg : PrePrepareMsg H) : Returned H :=
  match prePrepareMsg.requestMsg with
  | none => .panicked
  | some _ =>
      match node.createStateForNewConsensus with
      | .error err => .error err node
      | .ok node =>
          match node.currentState with
          | none => .panicked
          | some state =>
              let accepted := state.prePrepare digest prePrepareMsg
              let node := { node with currentState := some accepted.1 }
              match accepted.2 with
              | .error err => .error err node
              | .ok prepareMsg =>
                  .done node [.vote { prepareMsg with nodeID := node.nodeID }]

/-- What is left for the resolver, which only prints the error. -/
def resolved (node : Node H) : Returned H → Node H × List (Posted H)
  | .panicked => (node.crash, [])
  | .error _ node => (node, [])
  | .done node posted => (node, posted)

theorem getPrePrepare_eq (node : Node H) (msg : PrePrepareMsg H) :
    node.getPrePrepare digest msg = node.resolved (node.getPrePrepareReturned digest msg) := by
  unfold getPrePrepare getPrePrepareReturned
  cases hrequest : msg.requestMsg with
  | none => rfl
  | some request =>
      cases hstate : node.currentState with
      | some state =>
          simp only [reduceCtorEq, createStateForNewConsensus, hstate, Option.isSome_some,
            if_true, if_false, resolved]
      | none =>
          simp only [reduceCtorEq, createStateForNewConsensus, hstate, Option.isSome_none,
            Bool.false_eq_true, if_false]
          generalize State.prePrepare digest (createState node.view.id node.lastSequenceID)
            msg = accepted
          obtain ⟨state, err | prepareMsg⟩ := accepted
          · rfl
          · rfl

/-- What `GetPrePrepare` asks of a message when there is no state yet. -/
structure Correct (node : Node H) (msg : PrePrepareMsg H) : Prop where
  request : msg.requestMsg ≠ none
  view : msg.viewID = node.view.id
  newer : node.lastSequenceID = -1 ∨ node.lastSequenceID < msg.sequenceID
  digest_eq : msg.digest = digest msg.requestMsg

variable {digest}

/-- The state that `createStateForNewConsensus` makes, with the request stored. -/
def stored (node : Node H) (request : RequestMsg) (stage : Stage) : State H :=
  ⟨node.view.id, ⟨some request, ∅, ∅⟩, node.lastSequenceID, stage⟩

variable (digest) in
/-- With no state, a message with a request either moves the node to pre-prepared, or
leaves it with a state that is idle. -/
theorem getPrePrepareReturned_cases {node : Node H} (hnone : node.currentState = none)
    {msg : PrePrepareMsg H} {request : RequestMsg} (hrequest : msg.requestMsg = some request) :
    Correct digest node msg ∧
        node.getPrePrepareReturned digest msg =
          .done { node with currentState := some (node.stored request .prePrepared) }
            [.vote ⟨node.view.id, msg.sequenceID, msg.digest, node.nodeID, .prepareMsg⟩] ∨
      ¬ Correct digest node msg ∧
        node.getPrePrepareReturned digest msg =
          .error "pre-prepare message is corrupted"
            { node with currentState := some (node.stored request .idle) } := by
  have hverify : (node.stored request .idle).verifyMsg digest msg.viewID msg.sequenceID
      msg.digest = true ↔ _ := State.verifyMsg_eq_true
  have hcalled : node.getPrePrepareReturned digest msg =
      if (node.stored request .idle).verifyMsg digest msg.viewID msg.sequenceID msg.digest then
        .done { node with currentState := some (node.stored request .prePrepared) }
          [.vote ⟨node.view.id, msg.sequenceID, msg.digest, node.nodeID, .prepareMsg⟩]
      else
        .error "pre-prepare message is corrupted"
          { node with currentState := some (node.stored request .idle) } := by
    cases hpasses : (node.stored request .idle).verifyMsg digest msg.viewID msg.sequenceID
        msg.digest with
    | true =>
        simp only [stored] at hpasses
        simp only [getPrePrepareReturned, hrequest, createStateForNewConsensus, hnone,
          Option.isSome_none, Bool.false_eq_true, if_false, State.prePrepare, createState,
          stored, hpasses, Bool.not_true, if_true]
    | false =>
        simp only [stored] at hpasses
        simp only [getPrePrepareReturned, hrequest, createStateForNewConsensus, hnone,
          Option.isSome_none, Bool.false_eq_true, if_false, State.prePrepare, createState,
          stored, hpasses, Bool.not_false, if_true]
  rw [hcalled]
  split
  · next hpasses =>
      obtain ⟨hview, hnewer, hdigest⟩ := hverify.mp hpasses
      refine .inl ⟨⟨?_, hview, hnewer, ?_⟩, rfl⟩
      · rw [hrequest]
        exact Option.some_ne_none _
      · rw [hrequest]
        exact hdigest
  · next hfails =>
      refine .inr ⟨fun hcorrect => hfails (hverify.mpr ?_), rfl⟩
      have hdigest := hcorrect.digest_eq
      rw [hrequest] at hdigest
      exact ⟨hcorrect.view, hcorrect.newer, hdigest⟩

variable (digest)

/-- An error leaves the node as it was, and open to a correct pre-prepare. -/
def Harmless (node : Node H) (msg : PrePrepareMsg H) : Prop :=
  ∀ err left, node.getPrePrepareReturned digest msg = .error err left →
    left = node ∧
      ∀ later, Correct digest node later → ∃ node' posted,
        left.getPrePrepareReturned digest later = .done node' posted ∧
          node'.stage = some .prePrepared

variable {digest}

/-- The node goes on with what the call returns, which is harmless exactly when the message has
no request, or is correct. -/
theorem prePrepare_harmless_iff {node : Node H} (hnone : node.currentState = none)
    (msg : PrePrepareMsg H) :
    node.getPrePrepare digest msg = node.resolved (node.getPrePrepareReturned digest msg) ∧
      (Harmless digest node msg ↔ msg.requestMsg = none ∨ Correct digest node msg) := by
  refine ⟨getPrePrepare_eq digest node msg, ?_⟩
  cases hrequest : msg.requestMsg with
  | none =>
      refine ⟨fun _ => .inl rfl, fun _ err left hreturned => ?_⟩
      simp only [getPrePrepareReturned, hrequest, reduceCtorEq] at hreturned
  | some request =>
      rcases getPrePrepareReturned_cases digest hnone hrequest with
        ⟨hcorrect, hreturned⟩ | ⟨hbad, hreturned⟩
      · refine ⟨fun _ => .inr hcorrect, fun _ err left herror => ?_⟩
        rw [hreturned] at herror
        cases herror
      · constructor
        · intro hharmless
          have hsame := (hharmless _ _ hreturned).1
          have hstate := congrArg Node.currentState hsame
          rw [hnone] at hstate
          cases hstate
        · rintro (hnil | hcorrect)
          · cases hnil
          · exact absurd hcorrect hbad

end Digest

end Node

/-- A backup that hears the request with the wrong digest, and then with the right one.
The digest of a request is taken to be the request. -/
def heardRequest : RequestMsg := ⟨0, "client", "print", 1⟩

def corruptPrePrepare : PrePrepareMsg (Option RequestMsg) :=
  ⟨10000000000, 1, none, some heardRequest⟩

def correctPrePrepare : PrePrepareMsg (Option RequestMsg) :=
  ⟨10000000000, 1, some heardRequest, some heardRequest⟩

theorem corrupt_prePrepare_blocks :
    ∃ left : Node (Option RequestMsg),
      (newNode "MS").getPrePrepareReturned id corruptPrePrepare =
        .error "pre-prepare message is corrupted" left ∧
      left ≠ newNode "MS" ∧ Node.Correct id (newNode "MS") correctPrePrepare ∧
      left.getPrePrepareReturned id correctPrePrepare =
        .error "another consensus is ongoing" left := by
  refine ⟨_, rfl, ?_, ⟨by decide, rfl, .inl rfl, rfl⟩, rfl⟩
  intro hsame
  cases congrArg Node.currentState hsame

theorem prePrepare_harmless_corrupt :
    ¬ Node.Harmless id (newNode "MS") corruptPrePrepare := by
  rw [(Node.prePrepare_harmless_iff rfl corruptPrePrepare).2]
  rintro (hnil | hcorrect)
  · cases hnil
  · cases hcorrect.digest_eq

/-! What becomes of the node. An idle state is never left again: requests and
pre-prepares find a consensus under way, and votes are not routed to it. -/

namespace Node

def Unstarted (node : Node H) : Prop :=
  node.stage = none ∨ node.stage = some .idle

structure NoVotes (node : Node H) : Prop where
  delivering : ∀ msgs, Delivery.votes msgs ∉ node.delivering
  prepares : ∀ msgs, node.resolving ≠ .prepares msgs
  commits : ∀ msgs, node.resolving ≠ .commits msgs

theorem NoVotes.resolve {node node' : Node H} (h : node.NoVotes)
    (hdelivering : node'.delivering = node.delivering)
    (hresolving : node'.resolving = node.resolving.next) : node'.NoVotes := by
  have hnext : ∀ resolving : Resolving H, (∀ msgs, resolving ≠ .prepares msgs) →
      (∀ msgs, resolving ≠ .commits msgs) →
      (∀ msgs, resolving.next ≠ .prepares msgs) ∧ ∀ msgs, resolving.next ≠ .commits msgs := by
    intro resolving hprepares hcommits
    cases resolving with
    | idle => simp [Resolving.next]
    | requests msgs => cases msgs <;> simp [Resolving.next]
    | prePrepares msgs => cases msgs <;> simp [Resolving.next]
    | prepares msgs => exact absurd rfl (hprepares msgs)
    | commits msgs => exact absurd rfl (hcommits msgs)
  obtain ⟨hprepares, hcommits⟩ := hnext node.resolving h.prepares h.commits
  refine ⟨?_, ?_, ?_⟩
  · rw [hdelivering]
    exact h.delivering
  · rw [hresolving]
    exact hprepares
  · rw [hresolving]
    exact hcommits

theorem Unstarted.routeMsg {node : Node H} (h : node.Unstarted) (msg : Msg H)
    (hidle : node.delivering = []) :
    ∀ msgs, Delivery.votes msgs ∉ (node.routeMsg msg).delivering := by
  have hnot : ∀ stage, stage ≠ .idle → node.stage ≠ some stage := by
    intro stage hne hstage
    rcases h with h | h <;> rw [hstage] at h
    · cases h
    · exact hne (Option.some.inj h)
  intro msgs
  cases msg with
  | request msg => unfold Node.routeMsg; dsimp only; split <;> simp [hidle]
  | prePrepare msg => unfold Node.routeMsg; dsimp only; split <;> simp [hidle]
  | vote msg =>
      cases htype : msg.msgType with
      | prepareMsg =>
          simp [Node.routeMsg, htype, hnot .prePrepared (by decide), hidle]
      | commitMsg => simp [Node.routeMsg, htype, hnot .prepared (by decide), hidle]
      | unknown code => simp [Node.routeMsg, htype, hidle]

theorem Unstarted.routeMsgWhenAlarmed {node : Node H} (h : node.Unstarted)
    (hidle : node.delivering = []) :
    ∀ msgs, Delivery.votes msgs ∉ node.routeMsgWhenAlarmed.delivering := by
  intro msgs
  unfold Node.routeMsgWhenAlarmed
  rcases h with h | h <;> rw [h]
  · dsimp only
    split <;> split <;> simp
  · simp [hidle]

section Digest

variable [DecidableEq H] {digest : Option RequestMsg → H}

theorem Turn.unstarted {node node' : Node H} {posted : List (Posted H)}
    (hturn : Turn digest node node' posted) (hunstarted : node'.Unstarted)
    (hvotes : node.Unstarted → node.NoVotes) : node.Unstarted := by
  cases hturn with
  | kept => exact hunstarted
  | crashed => exact hunstarted
  | started request now hstate => rcases hunstarted with h | h <;> cases h
  | refused request hstate => exact .inl (by rw [stage, hstate]; rfl)
  | accepted msg request hstate hdigest => rcases hunstarted with h | h <;> cases h
  | countedPrepare state msg msgs hresolving hstate hdigest =>
      rcases hunstarted with h | h
      · cases h
      · have hidle : node.Unstarted := .inr (by rw [stage, hstate]; exact h)
        exact absurd hresolving ((hvotes hidle).prepares _)
  | prepared state msg msgs hresolving hstate hdigest => rcases hunstarted with h | h <;> cases h
  | countedCommit state msg msgs hresolving hstate hcommitted =>
      rcases hunstarted with h | h
      · cases h
      · have hidle : node.Unstarted := .inr (by rw [stage, hstate]; exact h)
        exact absurd hresolving ((hvotes hidle).commits _)
  | committed state msg msgs reqMsg reply hresolving hstate hverify hcommitted hrequest =>
      rcases hunstarted with h | h <;> cases h

theorem Turn.idle_kept {node node' : Node H} {posted : List (Posted H)}
    (hturn : Turn digest node node' posted) (hvotes : node.NoVotes) {state : State H}
    (hstate : node.currentState = some state) :
    node'.currentState = some state ∧ posted = [] := by
  cases hturn with
  | kept => exact ⟨hstate, rfl⟩
  | crashed => exact ⟨hstate, rfl⟩
  | started request now hnone => rw [hnone] at hstate; cases hstate
  | refused request hnone => rw [hnone] at hstate; cases hstate
  | accepted msg request hnone hdigest => rw [hnone] at hstate; cases hstate
  | countedPrepare state msg msgs hresolving => exact absurd hresolving (hvotes.prepares _)
  | prepared state msg msgs hresolving => exact absurd hresolving (hvotes.prepares _)
  | countedCommit state msg msgs hresolving => exact absurd hresolving (hvotes.commits _)
  | committed state msg msgs reqMsg reply hresolving =>
      exact absurd hresolving (hvotes.commits _)

theorem Turn.resolving_eq {node node' : Node H} {posted : List (Posted H)}
    (hturn : Turn digest node node' posted) :
    node'.delivering = node.delivering ∧ node'.resolving = node.resolving.next := by
  cases hturn <;> exact ⟨rfl, rfl⟩

theorem Acted.noVotes {node node' : Node H} {a : NodeAction H} {posted : List (Posted H)}
    (hacted : Acted digest node a node' posted) (hvotes : node.Unstarted → node.NoVotes) :
    node'.Unstarted → node'.NoVotes := by
  intro hunstarted
  cases hacted with
  | routed msg hidle =>
      obtain ⟨buffer, batches, hroute⟩ := routeMsg_eq node msg
      have hold : node.Unstarted := by
        rw [hroute] at hunstarted
        exact hunstarted
      have hdelivering := hold.routeMsg msg hidle
      rw [hroute] at hdelivering ⊢
      exact ⟨hdelivering, (hvotes hold).prepares, (hvotes hold).commits⟩
  | alarmed hidle =>
      obtain ⟨batches, hroute⟩ := routeMsgWhenAlarmed_eq node
      have hold : node.Unstarted := by
        rw [hroute] at hunstarted
        exact hunstarted
      have hdelivering := hold.routeMsgWhenAlarmed hidle
      rw [hroute] at hdelivering ⊢
      exact ⟨hdelivering, (hvotes hold).prepares, (hvotes hold).commits⟩
  | delivered batch batches hdelivering hresolving =>
      have hold := (hvotes hunstarted).delivering
      rw [hdelivering] at hold
      have hbatches : ∀ msgs, Delivery.votes msgs ∉ batches :=
        fun msgs hmem => hold msgs (List.mem_cons_of_mem _ hmem)
      cases batch with
      | requests msgs => exact ⟨hbatches, by simp [receive], by simp [receive]⟩
      | prePrepares msgs => exact ⟨hbatches, by simp [receive], by simp [receive]⟩
      | votes msgs => exact absurd List.mem_cons_self (hold msgs)
  | resolved now node' posted hturn =>
      obtain ⟨hdelivering, hresolving⟩ := hturn.resolving_eq
      exact (hvotes (hturn.unstarted hunstarted hvotes)).resolve hdelivering hresolving

theorem noVotes_run {nodeID : String} (run : NodeRun digest nodeID) :
    ∀ k, k ≤ run.length → (run.state k).Unstarted → (run.state k).NoVotes := by
  refine run.invariant (P := fun node => node.Unstarted → node.NoVotes) ?_ ?_
  · intro _
    exact ⟨by simp [newNode], by simp [newNode], by simp [newNode]⟩
  · intro node a node' hvotes hstep
    obtain ⟨posted, hacted⟩ := step_acted hstep
    exact hacted.noVotes hvotes

/-- The state that a bad pre-prepare has left stays to the end of the run. -/
theorem idle_run {nodeID : String} (run : NodeRun digest nodeID) {first : Nat}
    {state : State H} (hstate : (run.state first).currentState = some state)
    (hidle : state.currentStage = .idle) :
    ∀ k, first ≤ k → k ≤ run.length → (run.state k).currentState = some state := by
  refine run.induct_from (P := fun k => (run.state k).currentState = some state) hstate ?_
  intro k hle hk ih
  obtain ⟨posted, hacted⟩ := step_acted (run.steps k hk)
  have hunstarted : (run.state k).Unstarted := by
    refine .inr ?_
    rw [stage, ih]
    exact congrArg some hidle
  rcases hacted.turn_or_still with ⟨now, _, hturn⟩ | ⟨_, hstill⟩
  · exact (hturn.idle_kept (noVotes_run run k (Nat.le_of_lt hk) hunstarted) ih).1
  · rw [hstill.currentState_eq]
    exact ih

end Digest

end Node

end BlockchainTutorial.Pbft
