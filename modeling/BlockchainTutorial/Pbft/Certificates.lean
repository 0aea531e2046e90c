import BlockchainTutorial.Pbft.Turns

namespace BlockchainTutorial.Pbft

/-! What the votes in the logs of a replica are for. `verifyMsg` compares the view and
the digest of a vote with those of the replica, but its number only with that of the
last consensus. -/

variable {H : Type}

/-- The votes that the methods of a state are called with. -/
inductive Ballot (H : Type) where
  | prepare (msg : VoteMsg H)
  | commit (msg : VoteMsg H)

instance [Inhabited H] : Inhabited (Ballot H) := ⟨.prepare ⟨0, 0, default, "", .prepareMsg⟩⟩

def Ballot.msg : Ballot H → VoteMsg H
  | .prepare msg => msg
  | .commit msg => msg

def VoteMsg.Fits (msg : PrePrepareMsg H) (vote : VoteMsg H) : Prop :=
  vote.viewID = msg.viewID ∧ vote.sequenceID = msg.sequenceID ∧ vote.digest = msg.digest

/-- All that is kept is for the view, the number and the digest of a pre-prepare. -/
structure Certified (msg : PrePrepareMsg H) (state : State H) : Prop where
  request : ∀ request, state.msgLogs.reqMsg = some request →
    request.sequenceID = msg.sequenceID
  prepares : ∀ nodeID vote, state.msgLogs.prepareMsgs.lookup nodeID = some vote →
    vote.Fits msg
  commits : ∀ nodeID vote, state.msgLogs.commitMsgs.lookup nodeID = some vote →
    vote.Fits msg

section Digest

variable [DecidableEq H] (digest : Option RequestMsg → H)

/-- A replica accepts the pre-prepare of another node, and the primary its own. -/
inductive Accepted : PrePrepareMsg H → State H → Prop
  | replica (viewID lastSequenceID : Int) (msg : PrePrepareMsg H) (vote : VoteMsg H)
      (state : State H)
      (hprePrepare : (createState viewID lastSequenceID).prePrepare digest msg =
        (state, .ok vote)) : Accepted msg state
  | primary (viewID lastSequenceID : Int) (request : RequestMsg) (now : Int) :
      Accepted ((createState viewID lastSequenceID).startConsensus digest request now).2
        ((createState viewID lastSequenceID).startConsensus digest request now).1

namespace State

def receive (state : State H) : Ballot H → State H
  | .prepare msg => (state.prepare digest msg).1
  | .commit msg => (state.commit digest msg).1

def passes (state : State H) (ballot : Ballot H) : Bool :=
  state.verifyMsg digest ballot.msg.viewID ballot.msg.sequenceID ballot.msg.digest

end State

abbrev StateRun (state : State H) :=
  Lib.Run state fun state ballot => some (state.receive digest ballot)

variable {digest} {state : State H} {msg : PrePrepareMsg H}

/-- A pre-prepare and the state that it is accepted in. -/
structure Agrees (digest : Option RequestMsg → H) (msg : PrePrepareMsg H) (state : State H) :
    Prop where
  view : state.viewID = msg.viewID
  request : state.msgLogs.reqMsg = msg.requestMsg
  digest : msg.digest = digest msg.requestMsg

theorem Accepted.agrees (h : Accepted digest msg state) : Agrees digest msg state ∧
    state.msgLogs.prepareMsgs = ∅ ∧ state.msgLogs.commitMsgs = ∅ := by
  cases h with
  | replica viewID lastSequenceID _ vote _ hprePrepare =>
      unfold State.prePrepare at hprePrepare
      dsimp only at hprePrepare
      split at hprePrepare
      · cases hprePrepare
      · rename_i hverify
        obtain ⟨hview, _, hdigest⟩ := State.verifyMsg_eq_true.mp (by simpa using hverify)
        cases hprePrepare
        exact ⟨⟨hview.symm, rfl, hdigest⟩, rfl, rfl⟩
  | primary viewID lastSequenceID request now => exact ⟨⟨rfl, rfl, rfl⟩, rfl, rfl⟩

variable (digest) in
/-- A vote is rejected, or is put into the log of its kind. -/
theorem State.receive_cases (state : State H) (ballot : Ballot H) :
    (state.passes digest ballot = false ∧ state.receive digest ballot = state) ∨
    (state.passes digest ballot = true ∧
      (state.receive digest ballot).viewID = state.viewID ∧
      (state.receive digest ballot).msgLogs.reqMsg = state.msgLogs.reqMsg ∧
      (state.receive digest ballot).msgLogs = match ballot with
        | .prepare vote => (state.countPrepare vote).msgLogs
        | .commit vote => (state.countCommit vote).msgLogs) := by
  cases ballot with
  | prepare vote =>
      rcases state.prepare_cases digest vote with
        ⟨hverify, hkept⟩ | ⟨hverify, hcounted | ⟨_, hprepared⟩⟩
      · exact .inl ⟨hverify, by rw [receive, hkept]⟩
      · exact .inr ⟨hverify, by rw [receive, hcounted]; exact ⟨rfl, rfl, rfl⟩⟩
      · exact .inr ⟨hverify, by rw [receive, hprepared]; exact ⟨rfl, rfl, rfl⟩⟩
  | commit vote =>
      rcases state.commit_cases digest vote with
        ⟨hverify, hkept⟩ | ⟨hverify, ⟨_, hcounted⟩ | ⟨_, _, _, _, hcommitted⟩⟩
      · exact .inl ⟨hverify, by rw [receive, hkept]⟩
      · exact .inr ⟨hverify, by rw [receive, hcounted]; exact ⟨rfl, rfl, rfl⟩⟩
      · exact .inr ⟨hverify, by rw [receive, hcommitted]; exact ⟨rfl, rfl, rfl⟩⟩

theorem Agrees.receive (h : Agrees digest msg state) (ballot : Ballot H) :
    Agrees digest msg (state.receive digest ballot) := by
  rcases state.receive_cases digest ballot with ⟨_, hsame⟩ | ⟨_, hview, hreq, _⟩
  · rwa [hsame]
  · exact ⟨hview.trans h.view, hreq.trans h.request, h.digest⟩

theorem Accepted.certified (h : Accepted digest msg state)
    (hrequest : ∀ request, msg.requestMsg = some request →
      request.sequenceID = msg.sequenceID) : Certified msg state := by
  obtain ⟨hagrees, hprepares, hcommits⟩ := h.agrees
  refine ⟨?_, ?_, ?_⟩
  · intro request hsome
    exact hrequest request (hagrees.request ▸ hsome)
  · intro nodeID vote hkept
    simp [hprepares] at hkept
  · intro nodeID vote hkept
    simp [hcommits] at hkept

/-- A vote that passes the checks is for the view and the digest, but of any number. -/
theorem Agrees.fits_iff {ballot : Ballot H} (h : Agrees digest msg state)
    (hpasses : state.passes digest ballot = true) :
    ballot.msg.Fits msg ↔ ballot.msg.sequenceID = msg.sequenceID := by
  obtain ⟨hview, _, hdigest⟩ := State.verifyMsg_eq_true.mp hpasses
  rw [h.view] at hview
  rw [h.request, ← h.digest] at hdigest
  exact ⟨fun hfits => hfits.2.1, fun hnumber => ⟨hview, hnumber, hdigest⟩⟩

omit [DecidableEq H] in
theorem fits_of_insert {votes : VoteMap H} {vote : VoteMsg H}
    (hvotes : ∀ nodeID kept, votes.lookup nodeID = some kept → kept.Fits msg)
    (hvote : vote.Fits msg) (nodeID : String) (kept : VoteMsg H)
    (hkept : (votes.insert vote.nodeID vote).lookup nodeID = some kept) :
    kept.Fits msg := by
  by_cases hnode : nodeID = vote.nodeID
  · subst hnode
    rw [AList.lookup_insert, Option.some.injEq] at hkept
    exact hkept ▸ hvote
  · rw [AList.lookup_insert_ne hnode] at hkept
    exact hvotes nodeID kept hkept

theorem Certified.receive {ballot : Ballot H} (hagrees : Agrees digest msg state)
    (h : Certified msg state) (hnumber : state.passes digest ballot = true →
      ballot.msg.sequenceID = msg.sequenceID) :
    Certified msg (state.receive digest ballot) := by
  rcases state.receive_cases digest ballot with ⟨_, hsame⟩ | ⟨hpasses, _, _, hlogs⟩
  · rwa [hsame]
  · have hfits := (hagrees.fits_iff hpasses).mpr (hnumber hpasses)
    cases ballot with
    | prepare vote =>
        refine ⟨?_, ?_, ?_⟩
        · rw [hlogs]
          exact h.request
        · rw [hlogs]
          exact fits_of_insert h.prepares hfits
        · rw [hlogs]
          exact h.commits
    | commit vote =>
        refine ⟨?_, ?_, ?_⟩
        · rw [hlogs]
          exact h.request
        · rw [hlogs]
          exact h.prepares
        · rw [hlogs]
          exact fits_of_insert h.commits hfits

theorem Certified.number_of_receive {ballot : Ballot H} (hagrees : Agrees digest msg state)
    (h : Certified msg (state.receive digest ballot))
    (hpasses : state.passes digest ballot = true) :
    ballot.msg.sequenceID = msg.sequenceID := by
  rcases state.receive_cases digest ballot with ⟨hfails, _⟩ | ⟨_, _, _, hlogs⟩
  · rw [hpasses] at hfails
    cases hfails
  · refine (hagrees.fits_iff hpasses).mp ?_
    cases ballot with
    | prepare vote =>
        refine h.prepares vote.nodeID vote ?_
        rw [hlogs]
        exact AList.lookup_insert _
    | commit vote =>
        refine h.commits vote.nodeID vote ?_
        rw [hlogs]
        exact AList.lookup_insert _

theorem run_agrees (h : Accepted digest msg state) (run : StateRun digest state) :
    ∀ k, k ≤ run.length → Agrees digest msg (run.state k) := by
  refine run.invariant h.agrees.1 ?_
  intro s ballot s' hagrees hstep
  cases hstep
  exact hagrees.receive ballot

theorem certified_iff (h : Accepted digest msg state) (run : StateRun digest state) :
    (∀ k, k ≤ run.length → Certified msg (run.state k)) ↔
      (∀ request, msg.requestMsg = some request →
        request.sequenceID = msg.sequenceID) ∧
      run.AllSteps fun state ballot => state.passes digest ballot = true →
        ballot.msg.sequenceID = msg.sequenceID := by
  have hagrees := run_agrees h run
  have hnext : ∀ k, k < run.length →
      run.state (k + 1) = (run.state k).receive digest (run.act k) := by
    intro k hk
    exact (Option.some.inj (run.steps k hk)).symm
  constructor
  · intro hcertified
    refine ⟨?_, ?_⟩
    · intro request hsome
      have hfirst := hcertified 0 (by omega)
      rw [run.starts] at hfirst
      exact hfirst.request request (h.agrees.1.request.trans hsome)
    · intro k hk hpasses
      have hlater := hcertified (k + 1) (by omega)
      rw [hnext k hk] at hlater
      exact hlater.number_of_receive (hagrees k (by omega)) hpasses
  · rintro ⟨hrequest, hnumber⟩
    refine run.induct ?_ ?_
    · rw [run.starts]
      exact h.certified hrequest
    · intro k hk hcertified
      rw [hnext k hk]
      exact hcertified.receive (hagrees k (by omega)) (hnumber k hk)

end Digest

/-! A replica that has accepted a pre-prepare with the number 5. -/

def firstRequest : RequestMsg := ⟨1, "Client", "Read", 5⟩

def firstPrePrepare : PrePrepareMsg (Option RequestMsg) :=
  ⟨10000000000, 5, some firstRequest, some firstRequest⟩

def accepting : State (Option RequestMsg) where
  viewID := 10000000000
  msgLogs := ⟨some firstRequest, ∅, ∅⟩
  lastSequenceID := -1
  currentStage := .prePrepared

def ballotOf (sequenceID : Int) : Ballot (Option RequestMsg) :=
  .prepare ⟨10000000000, sequenceID, some firstRequest, "Google", .prepareMsg⟩

theorem accepted_first : Accepted id firstPrePrepare accepting :=
  .replica 10000000000 (-1) firstPrePrepare _ accepting rfl

theorem certified_iff_one_vote : ∃ run : StateRun id accepting,
    run.length = 1 ∧ ∀ k, k ≤ run.length → Certified firstPrePrepare (run.state k) := by
  have hexec : (Lib.exec (fun state ballot => some (State.receive id state ballot))
      accepting [ballotOf 5]).isSome := rfl
  refine ⟨.ofActions [ballotOf 5] hexec, rfl, ?_⟩
  refine (certified_iff accepted_first _).mpr ⟨?_, ?_⟩
  · intro request hsome
    cases hsome
    rfl
  · intro k hk _
    match k, hk with
    | 0, _ => rfl

theorem vote_of_other_number : ¬ ∀ (msg : PrePrepareMsg (Option RequestMsg))
    (state : State (Option RequestMsg)), Accepted id msg state →
    ∀ run : StateRun id state, ∀ k, k ≤ run.length → Certified msg (run.state k) := by
  intro hall
  have hread : (Lib.exec (fun state ballot => some (State.receive id state ballot))
      accepting [ballotOf 7]).map (·.msgLogs.prepareMsgs.lookup "Google") =
      some (some (ballotOf 7).msg) := by
    decide +kernel
  obtain ⟨run, _, hkept⟩ := Lib.Run.exists_of_exec hread
  have hfits := (hall firstPrePrepare accepting accepted_first run run.length
    (Nat.le_refl _)).prepares "Google" _ hkept
  exact absurd hfits.2.1 (by decide)

end BlockchainTutorial.Pbft
