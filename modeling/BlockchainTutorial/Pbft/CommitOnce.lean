import BlockchainTutorial.Pbft.Turns

namespace BlockchainTutorial.Pbft

/-! How often a node commits. The dispatcher looks at the stage when it makes a
batch, the resolver does not look at it at all. -/

variable {H : Type}

namespace Node

/-! The order of batches: votes to prepare are resolved before the node commits. -/

def Awaits (stage : Option Stage) : Resolving H → Prop
  | .prepares _ => stage = some .prePrepared ∨ stage = some .prepared
  | .commits _ => stage = some .prepared ∨ stage = some .committed
  | _ => True

theorem awaits_prepared (batch : Resolving H) : Awaits (some .prepared) batch := by
  cases batch with
  | prepares msgs => exact .inr rfl
  | commits msgs => exact .inl rfl
  | idle | requests msgs | prePrepares msgs => trivial

theorem Awaits.of_none {batch : Resolving H} (h : Awaits none batch) (stage : Option Stage) :
    Awaits stage batch := by
  cases batch with
  | prepares msgs => rcases h with h | h <;> cases h
  | commits msgs => rcases h with h | h <;> cases h
  | idle | requests msgs | prePrepares msgs => trivial

theorem Awaits.committed {batch : Resolving H} (h : ∀ msgs, batch ≠ .prepares msgs) :
    Awaits (some .committed) batch := by
  cases batch with
  | prepares msgs => exact absurd rfl (h msgs)
  | commits msgs => exact .inr rfl
  | idle | requests msgs | prePrepares msgs => trivial

theorem Awaits.next {stage : Option Stage} {batch : Resolving H} (h : Awaits stage batch) :
    Awaits stage batch.next := by
  unfold Resolving.next
  split
  · trivial
  · trivial
  · exact h
  · exact h
  · trivial

theorem commits_of_next {batch : Resolving H} {msgs : List (VoteMsg H)}
    (h : batch.next = .commits msgs) : ∃ all, batch = .commits all := by
  unfold Resolving.next at h
  split at h <;> cases h
  exact ⟨_, rfl⟩

theorem receive_votes {msgs : List (VoteMsg H)} {msgType : MsgType}
    (htyped : ∀ m ∈ msgs, m.msgType = msgType) :
    receive (.votes msgs) = .idle ∨
      (msgType = .prepareMsg ∧ receive (.votes msgs) = .prepares msgs) ∨
      (msgType = .commitMsg ∧ receive (.votes msgs) = .commits msgs) := by
  cases msgs with
  | nil => exact .inl rfl
  | cons msg msgs =>
      have htype := htyped msg List.mem_cons_self
      cases msgType with
      | prepareMsg => exact .inr (.inl ⟨rfl, by simp [receive, htype]⟩)
      | commitMsg => exact .inr (.inr ⟨rfl, by simp [receive, htype]⟩)
      | unknown code => exact .inl (by simp [receive, htype])

structure Orderly (node : Node H) : Prop where
  prepareBuffer : ∀ m ∈ node.msgBuffer.prepareMsgs, m.msgType = .prepareMsg
  commitBuffer : ∀ m ∈ node.msgBuffer.commitMsgs, m.msgType = .commitMsg
  delivering : ∀ batch ∈ node.delivering, Awaits node.stage (receive batch)
  single : ∀ batch batches, node.delivering = batch :: batches →
    ∀ next ∈ batches, ∃ msgs, next = .prePrepares msgs
  resolving : Awaits node.stage node.resolving
  order : ∀ msgs, node.resolving = .commits msgs → ∀ batch ∈ node.delivering,
    ∀ others, receive batch ≠ .prepares others

theorem orderly_newNode (nodeID : String) : Orderly (newNode nodeID : Node H) := by
  refine ⟨?_, ?_, ?_, ?_, trivial, ?_⟩ <;> simp [newNode]

theorem Orderly.deliver {node : Node H} (h : Orderly node) {buffer : MsgBuffer H}
    (hprepare : ∀ m ∈ buffer.prepareMsgs, m.msgType = .prepareMsg)
    (hcommit : ∀ m ∈ buffer.commitMsgs, m.msgType = .commitMsg)
    {batches : List (Delivery H)}
    (hawaits : ∀ batch ∈ batches, Awaits node.stage (receive batch))
    (hsingle : ∀ batch rest, batches = batch :: rest →
      ∀ next ∈ rest, ∃ msgs, next = .prePrepares msgs)
    (horder : ∀ batch ∈ batches, ∀ others, receive batch = .prepares others →
      node.stage = some .prePrepared) :
    Orderly { node with msgBuffer := buffer, delivering := batches } := by
  refine ⟨hprepare, hcommit, hawaits, hsingle, h.resolving, ?_⟩
  intro msgs hresolving batch hmem others hprepares
  have hstage := horder batch hmem others hprepares
  have hawaits := h.resolving
  dsimp only at hresolving
  rw [hresolving, hstage] at hawaits
  rcases hawaits with hne | hne <;> cases hne

theorem Orderly.deliverVotes {node : Node H} (h : Orderly node) {buffer : MsgBuffer H}
    (hprepare : ∀ m ∈ buffer.prepareMsgs, m.msgType = .prepareMsg)
    (hcommit : ∀ m ∈ buffer.commitMsgs, m.msgType = .commitMsg)
    {msgs : List (VoteMsg H)} {msgType : MsgType} (htyped : ∀ m ∈ msgs, m.msgType = msgType)
    (hstage : msgType = .prepareMsg ∧ node.stage = some .prePrepared ∨
      msgType = .commitMsg ∧ node.stage = some .prepared) :
    Orderly { node with msgBuffer := buffer, delivering := [.votes msgs] } := by
  refine h.deliver hprepare hcommit ?_ (by simp) ?_
  · intro batch hmem
    obtain rfl := List.mem_singleton.mp hmem
    rcases receive_votes htyped with hidle | ⟨hprepares, hreceive⟩ | ⟨hcommits, hreceive⟩
    · rw [hidle]
      trivial
    · rcases hstage with ⟨_, hstage⟩ | ⟨hcommits, _⟩
      · rw [hreceive]
        exact .inl hstage
      · rw [hcommits] at hprepares
        cases hprepares
    · rcases hstage with ⟨hprepares, _⟩ | ⟨_, hstage⟩
      · rw [hcommits] at hprepares
        cases hprepares
      · rw [hreceive]
        exact .inl hstage
  · intro batch hmem others hothers
    obtain rfl := List.mem_singleton.mp hmem
    rcases receive_votes htyped with hidle | ⟨hprepares, _⟩ | ⟨_, hreceive⟩
    · rw [hidle] at hothers
      cases hothers
    · rcases hstage with ⟨_, hstage⟩ | ⟨hcommits, _⟩
      · exact hstage
      · rw [hcommits] at hprepares
        cases hprepares
    · rw [hreceive] at hothers
      cases hothers

theorem Orderly.deliverOthers {node : Node H} (h : Orderly node) {buffer : MsgBuffer H}
    (hprepare : buffer.prepareMsgs = node.msgBuffer.prepareMsgs)
    (hcommit : buffer.commitMsgs = node.msgBuffer.commitMsgs)
    {batches : List (Delivery H)}
    (hothers : ∀ batch ∈ batches, ∀ msgs, batch ≠ .votes msgs)
    (hsingle : ∀ batch rest, batches = batch :: rest →
      ∀ next ∈ rest, ∃ msgs, next = .prePrepares msgs) :
    Orderly { node with msgBuffer := buffer, delivering := batches } := by
  refine h.deliver (hprepare ▸ h.prepareBuffer) (hcommit ▸ h.commitBuffer) ?_ hsingle ?_
  · intro batch hmem
    cases batch with
    | requests msgs => trivial
    | prePrepares msgs => trivial
    | votes msgs => exact absurd rfl (hothers _ hmem msgs)
  · intro batch hmem others hprepares
    cases batch with
    | requests msgs => cases hprepares
    | prePrepares msgs => cases hprepares
    | votes msgs => exact absurd rfl (hothers _ hmem msgs)

theorem typed_append {msgs : List (VoteMsg H)} {msg : VoteMsg H} {msgType : MsgType}
    (hmsgs : ∀ m ∈ msgs, m.msgType = msgType) (hmsg : msg.msgType = msgType) :
    ∀ m ∈ msgs ++ [msg], m.msgType = msgType := by
  intro m hmem
  rcases List.mem_append.mp hmem with hmem | hmem
  · exact hmsgs m hmem
  · rw [List.mem_singleton.mp hmem]
    exact hmsg

theorem Orderly.routeMsg {node : Node H} (h : Orderly node) (hidle : node.delivering = [])
    (msg : Msg H) : Orderly (node.routeMsg msg) := by
  unfold Node.routeMsg
  cases msg with
  | request msg =>
      dsimp only
      split
      · apply h.deliverOthers <;> simp
      · apply h.deliverOthers <;> simp [hidle]
  | prePrepare msg =>
      dsimp only
      split
      · apply h.deliverOthers <;> simp
      · apply h.deliverOthers <;> simp [hidle]
  | vote msg =>
      cases htype : msg.msgType with
      | prepareMsg =>
          have htyped := typed_append h.prepareBuffer htype
          simp only [htype]
          split
          · refine h.deliver ?_ ?_ ?_ ?_ ?_
            · exact htyped
            · exact h.commitBuffer
            · exact h.delivering
            · exact h.single
            · simp [hidle]
          · rename_i hstage
            refine h.deliverVotes ?_ ?_ htyped (.inl ⟨rfl, not_not.mp hstage⟩)
            · simp
            · exact h.commitBuffer
      | commitMsg =>
          have htyped := typed_append h.commitBuffer htype
          simp only [htype]
          split
          · refine h.deliver ?_ ?_ ?_ ?_ ?_
            · exact h.prepareBuffer
            · exact htyped
            · exact h.delivering
            · exact h.single
            · simp [hidle]
          · rename_i hstage
            refine h.deliverVotes ?_ ?_ htyped (.inr ⟨rfl, not_not.mp hstage⟩)
            · exact h.prepareBuffer
            · simp
      | unknown code =>
          simp only [htype]
          exact h

theorem Orderly.routeMsgWhenAlarmed {node : Node H} (h : Orderly node) :
    Orderly node.routeMsgWhenAlarmed := by
  unfold Node.routeMsgWhenAlarmed
  split
  · refine h.deliverOthers (Eq.refl node.msgBuffer.prepareMsgs) rfl ?_ ?_
    · intro batch hmem
      split at hmem <;> split at hmem <;> simp at hmem
      · rcases hmem with rfl | rfl <;> simp
      · simp [hmem]
      · simp [hmem]
    · intro batch rest hbatches next hmem
      split at hbatches <;> split at hbatches <;> simp at hbatches
      · rw [← hbatches.2, List.mem_singleton] at hmem
        exact ⟨_, hmem⟩
      · rw [hbatches.2] at hmem
        cases hmem
      · rw [hbatches.2] at hmem
        cases hmem
  · rename_i hstage
    split
    · exact h.deliverVotes h.prepareBuffer h.commitBuffer h.prepareBuffer (.inl ⟨rfl, hstage⟩)
    · exact h
  · rename_i hstage
    split
    · exact h.deliverVotes h.prepareBuffer h.commitBuffer h.commitBuffer (.inr ⟨rfl, hstage⟩)
    · exact h
  · exact h

theorem Orderly.delivered {node : Node H} (h : Orderly node) {batch : Delivery H}
    {batches : List (Delivery H)} (hdelivering : node.delivering = batch :: batches) :
    Orderly { node with delivering := batches, resolving := receive batch } := by
  have hsingle := h.single batch batches hdelivering
  refine ⟨h.prepareBuffer, h.commitBuffer, ?_, ?_, ?_, ?_⟩
  · intro next hmem
    exact h.delivering next (by rw [hdelivering]; exact List.mem_cons_of_mem _ hmem)
  · intro first rest hbatches next hmem
    dsimp only at hbatches
    exact hsingle next (by rw [hbatches]; exact List.mem_cons_of_mem _ hmem)
  · exact h.delivering batch (by rw [hdelivering]; exact List.mem_cons_self)
  · intro msgs _ next hmem others hothers
    obtain ⟨prePrepares, rfl⟩ := hsingle next hmem
    cases hothers

theorem Orderly.resolved {node : Node H} (h : Orderly node) {state : Option (State H)}
    {committedMsgs : List RequestMsg} {crashed : Bool}
    (hdelivering : ∀ batch ∈ node.delivering,
      Awaits (state.map (·.currentStage)) (receive batch))
    (hresolving : Awaits (state.map (·.currentStage)) node.resolving.next) :
    Orderly ⟨node.nodeID, node.nodeTable, node.view, state, committedMsgs, node.msgBuffer,
      node.delivering, node.resolving.next, crashed⟩ := by
  refine ⟨h.prepareBuffer, h.commitBuffer, hdelivering, h.single, hresolving, ?_⟩
  intro msgs hnext
  obtain ⟨all, hall⟩ := commits_of_next hnext
  exact h.order all hall

variable {node node' : Node H} {posted : List (Posted H)}

section Digest

variable [DecidableEq H] {digest : Option RequestMsg → H}

theorem Orderly.turn (h : Orderly node) (hturn : Turn digest node node' posted) :
    Orderly node' := by
  have hsame {state : State H} (hstate : node.currentState = some state) :
      node.stage = some state.currentStage := by
    rw [Node.stage, hstate]
    rfl
  cases hturn with
  | kept => exact h.resolved h.delivering h.resolving.next
  | crashed => exact h.resolved h.delivering h.resolving.next
  | started request now hstate =>
      have hnone : node.stage = none := by rw [Node.stage, hstate]; rfl
      exact h.resolved (fun batch hmem => (hnone ▸ h.delivering batch hmem).of_none _)
        ((hnone ▸ h.resolving).of_none _).next
  | refused request hstate =>
      have hnone : node.stage = none := by rw [Node.stage, hstate]; rfl
      exact h.resolved (fun batch hmem => (hnone ▸ h.delivering batch hmem).of_none _)
        ((hnone ▸ h.resolving).of_none _).next
  | accepted msg request hstate hdigest =>
      have hnone : node.stage = none := by rw [Node.stage, hstate]; rfl
      exact h.resolved (fun batch hmem => (hnone ▸ h.delivering batch hmem).of_none _)
        ((hnone ▸ h.resolving).of_none _).next
  | countedPrepare state msg msgs hresolving hstate hdigest =>
      have hstage : node.stage = (some (state.countPrepare msg)).map (·.currentStage) := by
        rw [hsame hstate]
        rfl
      exact h.resolved (fun batch hmem => hstage ▸ h.delivering batch hmem)
        (hstage ▸ h.resolving).next
  | prepared state msg msgs hresolving hstate hdigest =>
      exact h.resolved (fun batch _ => awaits_prepared _) (awaits_prepared _)
  | countedCommit state msg msgs hresolving hstate hcommitted =>
      have hstage : node.stage = (some (state.countCommit msg)).map (·.currentStage) := by
        rw [hsame hstate]
        rfl
      exact h.resolved (fun batch hmem => hstage ▸ h.delivering batch hmem)
        (hstage ▸ h.resolving).next
  | committed state msg msgs reqMsg reply hresolving hstate hverify hcommitted hrequest =>
      refine h.resolved (fun batch hmem => .committed (h.order _ hresolving batch hmem)) ?_
      rw [hresolving]
      exact .inr rfl

theorem Orderly.acted {a : NodeAction H} (h : Orderly node)
    (hacted : Acted digest node a node' posted) : Orderly node' := by
  cases hacted with
  | routed msg hdelivering => exact h.routeMsg hdelivering msg
  | alarmed hdelivering => exact h.routeMsgWhenAlarmed
  | delivered batch batches hdelivering hresolving => exact h.delivered hdelivering
  | resolved now node' posted hturn => exact h.turn hturn

end Digest

/-! The requests that the node executed. -/

structure Ledger (node : Node H) : Prop where
  before : node.stage ≠ some .committed → node.committedMsgs = []
  after : ∀ state, node.currentState = some state → state.currentStage = .committed →
    state.committed = true ∧ ∀ reqMsg, state.msgLogs.reqMsg = some reqMsg →
      reqMsg ∈ node.committedMsgs

theorem ledger_newNode (nodeID : String) : Ledger (newNode nodeID : Node H) := by
  refine ⟨fun _ => rfl, ?_⟩
  intro state hstate
  cases hstate

/-- A node whose stage and ledger stay as they are below `Committed`. -/
theorem Ledger.uncommitted (h : Ledger node) (hstage : node.stage ≠ some .committed)
    (hmsgs : node'.committedMsgs = node.committedMsgs)
    (hstage' : node'.stage ≠ some .committed) : Ledger node' := by
  refine ⟨fun _ => hmsgs.trans (h.before hstage), ?_⟩
  intro state hstate hcommitted
  rw [stage, hstate, Option.map_some, hcommitted] at hstage'
  exact absurd rfl hstage'

theorem Ledger.same (h : Ledger node) (hstate : node'.currentState = node.currentState)
    (hmsgs : node'.committedMsgs = node.committedMsgs) : Ledger node' := by
  refine ⟨?_, ?_⟩
  · intro hstage
    rw [stage, hstate] at hstage
    exact hmsgs.trans (h.before hstage)
  · rw [hstate, hmsgs]
    exact h.after

theorem stage_of_currentState {state : State H} (h : node.currentState = some state) :
    node.stage = some state.currentStage := by
  rw [stage, h]
  rfl

theorem committed_countCommit {state : State H} (h : state.committed = true)
    (msg : VoteMsg H) : (state.countCommit msg).committed = true := by
  rw [State.committed_eq_true] at h ⊢
  obtain ⟨hrequest, hprepares, hcommits⟩ := h
  exact ⟨hrequest, hprepares, Nat.le_trans hcommits (State.length_keys_insert _ _ _)⟩

section Digest

variable [DecidableEq H] {digest : Option RequestMsg → H}

theorem Ledger.turn (hordered : Orderly node) (h : Ledger node)
    (hturn : Turn digest node node' posted) : Ledger node' := by
  cases hturn with
  | kept => exact h.same rfl rfl
  | crashed => exact h.same rfl rfl
  | started request now hstate =>
      exact h.uncommitted (by simp [stage, hstate]) rfl (by simp [stage, State.startConsensus])
  | refused request hstate =>
      exact h.uncommitted (by simp [stage, hstate]) rfl (by simp [stage])
  | accepted msg request hstate hdigest =>
      exact h.uncommitted (by simp [stage, hstate]) rfl (by simp [stage])
  | countedPrepare state msg msgs hresolving hstate hdigest =>
      have hstage : node.stage ≠ some .committed := by
        have hawaits := hordered.resolving
        rw [hresolving] at hawaits
        rcases hawaits with hstage | hstage <;> simp [hstage]
      refine h.uncommitted hstage rfl ?_
      rwa [stage_of_currentState hstate] at hstage
  | prepared state msg msgs hresolving hstate hdigest =>
      have hstage : node.stage ≠ some .committed := by
        have hawaits := hordered.resolving
        rw [hresolving] at hawaits
        rcases hawaits with hstage | hstage <;> simp [hstage]
      exact h.uncommitted hstage rfl (by simp [stage])
  | countedCommit state msg msgs hresolving hstate hcommitted =>
      have hstage : node.stage ≠ some .committed := by
        intro hstage
        rw [stage_of_currentState hstate, Option.some.injEq] at hstage
        have hlog := committed_countCommit (h.after state hstate hstage).1 msg
        rw [hlog] at hcommitted
        cases hcommitted
      refine h.uncommitted hstage rfl ?_
      rwa [stage_of_currentState hstate] at hstage
  | committed state msg msgs reqMsg reply hresolving hstate hverify hcommitted hrequest =>
      refine ⟨fun hstage => absurd rfl hstage, ?_⟩
      intro state' hstate' _
      obtain rfl := Option.some.inj hstate'
      refine ⟨hcommitted, ?_⟩
      intro reqMsg' hrequest'
      obtain rfl : reqMsg = reqMsg' := Option.some.inj (hrequest.symm.trans hrequest')
      exact List.mem_append_right _ (List.mem_singleton_self _)

theorem Ledger.acted {a : NodeAction H} (hordered : Orderly node) (h : Ledger node)
    (hacted : Acted digest node a node' posted) : Ledger node' := by
  rcases hacted.turn_or_still with ⟨now, _, hturn⟩ | ⟨_, hstill⟩
  · exact h.turn hordered hturn
  · exact h.same hstill.currentState_eq hstill.committedMsgs_eq

theorem run_ledger {nodeID : String} (run : NodeRun digest nodeID) :
    ∀ k, k ≤ run.length → Orderly (run.state k) ∧ Ledger (run.state k) := by
  refine run.invariant (P := fun node => Orderly node ∧ Ledger node)
    ⟨orderly_newNode nodeID, ledger_newNode nodeID⟩ ?_
  intro node a node' ⟨hordered, hledger⟩ hstep
  obtain ⟨posted, hacted⟩ := step_acted hstep
  exact ⟨hordered.acted hacted, hledger.acted hordered hacted⟩

/-- The resolver looks at a good vote to commit although the node has committed. -/
def repeats (digest : Option RequestMsg → H) (node : Node H) : NodeAction H → Bool
  | .resolve _ =>
      match node.resolving, node.currentState with
      | .commits (msg :: _), some state =>
          state.currentStage = .committed ∧
            state.verifyMsg digest msg.viewID msg.sequenceID msg.digest
      | _, _ => false
  | _ => false

theorem repeats_eq_true (now : Int) : repeats digest node (.resolve now) = true ↔
    ∃ msg msgs state, node.resolving = .commits (msg :: msgs) ∧
      node.currentState = some state ∧ state.currentStage = .committed ∧
      state.verifyMsg digest msg.viewID msg.sequenceID msg.digest = true := by
  simp only [repeats]
  split
  · rename_i msg msgs state hresolving hstate
    constructor
    · intro h
      obtain ⟨hstage, hverify⟩ := of_decide_eq_true h
      exact ⟨msg, msgs, state, hresolving, hstate, hstage, hverify⟩
    · rintro ⟨msg', msgs', state', hbatch, hstate', hstage, hverify⟩
      rw [hresolving] at hbatch
      rw [hstate] at hstate'
      cases hbatch
      cases hstate'
      exact decide_eq_true ⟨hstage, hverify⟩
  · rename_i hother
    constructor
    · intro h
      cases h
    · rintro ⟨msg, msgs, state, hresolving, hstate, _⟩
      exact absurd hstate (hother msg msgs state hresolving)

theorem resolveMsg_repeats {now : Int} (h : Ledger node)
    (hrepeats : repeats digest node (.resolve now) = true)
    (hresolve : node.resolveMsg digest now = some (node', posted)) :
    ¬ node'.committedMsgs.Nodup := by
  obtain ⟨msg, msgs, state, hresolving, hstate, hstage, hverify⟩ :=
    (repeats_eq_true now).mp hrepeats
  obtain ⟨hcommitted, hlog⟩ := h.after state hstate hstage
  have hagain := committed_countCommit hcommitted msg
  rw [resolveMsg] at hresolve
  simp only [hresolving] at hresolve
  rcases state.commit_cases digest msg with
    ⟨hreject, _⟩ | ⟨_, ⟨hnot, _⟩ | ⟨reqMsg, reply, _, hrequest, hreported⟩⟩
  · rw [hverify] at hreject
    cases hreject
  · rw [hagain] at hnot
    cases hnot
  · simp only [getCommit, hstate, hreported, Option.some.injEq, Prod.mk.injEq] at hresolve
    rw [← hresolve.1, List.nodup_append]
    intro hnodup
    exact hnodup.2.2 reqMsg (hlog reqMsg hrequest) reqMsg (List.mem_singleton_self _) rfl

theorem nodup_acted {a : NodeAction H} (h : Ledger node)
    (hacted : Acted digest node a node' posted) (hquiet : repeats digest node a = false)
    (hnodup : node.committedMsgs.Nodup) : node'.committedMsgs.Nodup := by
  rcases hacted.turn_or_still with ⟨now, rfl, hturn⟩ | ⟨_, hstill⟩
  · cases hturn with
    | committed state msg msgs reqMsg reply hresolving hstate hverify hcommitted hrequest =>
        have hstage : node.stage ≠ some .committed := by
          intro hstage
          rw [stage_of_currentState hstate, Option.some.injEq] at hstage
          have hrepeats := (repeats_eq_true now).mpr
            ⟨msg, msgs, state, hresolving, hstate, hstage, hverify⟩
          rw [hquiet] at hrepeats
          cases hrepeats
        simp [h.before hstage]
    | _ => exact hnodup
  · rw [hstill.committedMsgs_eq]
    exact hnodup

/-- A node commits at most once exactly in the runs where no good vote to commit is
resolved after it committed. -/
theorem commits_once {nodeID : String} (run : NodeRun digest nodeID) :
    (∀ k, k ≤ run.length → (run.state k).committedMsgs.Nodup) ↔
      run.AllSteps fun node a => repeats digest node a = false := by
  constructor
  · intro hnodup k hk
    rw [Bool.eq_false_iff]
    intro hrepeats
    have hstep := run.steps k hk
    cases hact : run.act k with
    | entrance msg => simp [hact, repeats] at hrepeats
    | alarm => simp [hact, repeats] at hrepeats
    | delivery => simp [hact, repeats] at hrepeats
    | resolve now =>
        rw [hact] at hrepeats hstep
        unfold step at hstep
        split at hstep
        · cases hstep
        · obtain ⟨⟨node', posted⟩, hresolve, hnext⟩ := Option.map_eq_some_iff.mp hstep
          have hledger := (run_ledger run k (Nat.le_of_lt hk)).2
          refine resolveMsg_repeats hledger hrepeats hresolve ?_
          rw [show node' = run.state (k + 1) from hnext]
          exact hnodup (k + 1) hk
  · intro hall
    refine run.induct (by rw [run.starts]; exact List.nodup_nil) ?_
    intro k hk ih
    obtain ⟨posted, hacted⟩ := step_acted (run.steps k hk)
    exact nodup_acted (run_ledger run k (Nat.le_of_lt hk)).2 hacted (hall k hk) ih

end Digest

end Node

section Repeat

def repeatRequest : RequestMsg := ⟨0, "client", "op", 5⟩

def repeatVote (nodeID : String) (msgType : MsgType) : NodeAction (Option RequestMsg) :=
  .entrance (.vote ⟨10000000000, 5, some repeatRequest, nodeID, msgType⟩)

/-- Two votes to commit arrive before the second vote to prepare. -/
def repeatActs : List (NodeAction (Option RequestMsg)) :=
  [.entrance (.request { repeatRequest with sequenceID := 0 }), .delivery, .resolve 5,
    .resolve 5, repeatVote "MS" .prepareMsg, .delivery, .resolve 6, .resolve 6,
    repeatVote "MS" .commitMsg, repeatVote "Google" .commitMsg,
    repeatVote "Google" .prepareMsg, .delivery, .resolve 7, .resolve 7,
    repeatVote "IBM" .commitMsg, .delivery, .resolve 8, .resolve 8, .resolve 8]

theorem commits_twice : ¬ ∀ run : NodeRun (id : Option RequestMsg → _) "Apple",
    ∀ k, k ≤ run.length → (run.state k).committedMsgs.Nodup := by
  intro h
  have hrun : (Lib.exec (Node.step id) (newNode "Apple") repeatActs).map
      (·.committedMsgs) = some [repeatRequest, repeatRequest] := by decide +kernel
  obtain ⟨run, _, hmsgs⟩ := Lib.Run.exists_of_exec hrun
  have hnodup := h run run.length (Nat.le_refl _)
  rw [hmsgs] at hnodup
  simp at hnodup

end Repeat

end BlockchainTutorial.Pbft
