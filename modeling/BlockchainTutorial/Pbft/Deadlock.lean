import BlockchainTutorial.Pbft.Coherence

namespace BlockchainTutorial.Pbft

/-! When the servers come to rest: with all nodes committed, or with some that wait for
each other in a ring. -/

variable {H : Type}

namespace Servers

variable {digest : Option RequestMsg → H} {request : RequestMsg} {servers servers' : Servers H}

/-! The steps that can be taken. -/

section Steps

variable [DecidableEq H]

theorem isSome_getReq (hrequest : servers.request ≠ none) (hfree : servers.Free primary) :
    (servers.step digest .getReq).isSome := by
  obtain ⟨first, hfirst⟩ := Option.ne_none_iff_exists'.mp hrequest
  simp [step, hfirst, hfree]

theorem isSome_send {nodeID target : String} {msg : Msg H} {targets : List String}
    (hposting : servers.posting nodeID = some (msg, target :: targets))
    (hfree : servers.Free target) : (servers.step digest (.send nodeID)).isSome := by
  simp [step, hposting, hfree]

variable {nodeID : String} (hnode : nodeID ∈ nodeIDs)
  (hrunning : (servers.nodes nodeID).crashed = false)

include hnode hrunning

theorem isSome_routeMsg (hentrance : servers.entrance nodeID ≠ none)
    (hidle : (servers.nodes nodeID).delivering = []) :
    (servers.step digest (.routeMsg nodeID)).isSome := by
  obtain ⟨msg, hmsg⟩ := Option.ne_none_iff_exists'.mp hentrance
  simp [step, act, Node.act, hmsg, hnode, hrunning, hidle]

theorem isSome_alarm (hfree : servers.Free nodeID) :
    (servers.step digest (.alarm nodeID)).isSome := by
  simp [step, act, Node.act, hnode, hrunning, hfree.1, hfree.2]

theorem isSome_deliver (hposting : servers.posting nodeID = none)
    (hdelivering : (servers.nodes nodeID).delivering ≠ [])
    (hresolving : (servers.nodes nodeID).resolving = .idle) :
    (servers.step digest (.deliver nodeID)).isSome := by
  obtain ⟨batch, batches, hbatches⟩ := List.exists_cons_of_ne_nil hdelivering
  simp [step, act, Node.act, hposting, hnode, hrunning, hbatches, hresolving]

theorem isSome_resolve (hposting : servers.posting nodeID = none)
    (hresolving : (servers.nodes nodeID).resolving ≠ .idle) :
    (servers.step digest (.resolve nodeID 0 (otherNodes nodeID))).isSome := by
  have hresolve : ((servers.nodes nodeID).resolveMsg digest 0).isSome := by
    unfold Node.resolveMsg
    split
    · contradiction
    all_goals rfl
  simpa [step, act, Node.act, hposting, hnode, hrunning] using hresolve

end Steps

/-! What a server at rest has seen. -/

structure AtRest (servers : Servers H) (nodeID : String) : Prop where
  posting : servers.posting nodeID = none
  entrance : servers.entrance nodeID = none
  delivering : (servers.nodes nodeID).delivering = []
  resolving : (servers.nodes nodeID).resolving = .idle
  quiet : ¬ (servers.nodes nodeID).Awaited

theorem AtRest.buffered {nodeID : String} (h : servers.AtRest nodeID) {msg : Msg H}
    (hreached : servers.Reached nodeID msg) :
    msg ∈ (servers.nodes nodeID).msgBuffer.msgs ∨
      Absorbed (servers.nodes nodeID).currentState msg := by
  rcases hreached with hentered | hmem | habsorbed
  · rw [h.entrance] at hentered
    cases hentered
  · left
    rcases Node.mem_msgs.mp hmem with hmem | hmem | ⟨batch, hbatch, _⟩
    · exact hmem
    · rw [h.resolving] at hmem
      cases hmem
    · rw [h.delivering] at hbatch
      cases hbatch
  · exact .inr habsorbed

/-- A request or a pre-prepare makes a state. -/
theorem AtRest.started {nodeID : String} (h : servers.AtRest nodeID) {msg : Msg H}
    (hreached : servers.Reached nodeID msg) (hmsg : ∀ vote, msg ≠ .vote vote) :
    (servers.nodes nodeID).currentState ≠ none := by
  intro hnone
  rcases h.buffered hreached with hmem | habsorbed
  · refine h.quiet ?_
    unfold Node.Awaited
    rw [hnone]
    cases msg with
    | request msg => exact .inl fun hempty => by simp [MsgBuffer.msgs, hempty] at hmem
    | prePrepare msg => exact .inr fun hempty => by simp [MsgBuffer.msgs, hempty] at hmem
    | vote msg => exact absurd rfl (hmsg msg)
  · rw [hnone] at habsorbed
    exact not_absorbed_none habsorbed

theorem AtRest.prepareCounted {nodeID : String} (h : servers.AtRest nodeID) {msg : VoteMsg H}
    (hreached : servers.Reached nodeID (.vote msg)) (htype : msg.msgType = .prepareMsg)
    (htyped : (servers.nodes nodeID).Typed) {state : State H}
    (hstate : (servers.nodes nodeID).currentState = some state)
    (hstage : state.currentStage = .prePrepared) :
    msg.nodeID ∈ state.msgLogs.prepareMsgs.keys := by
  rcases h.buffered hreached with hmem | ⟨_, hcounted, hprepare, _⟩
  · by_contra hnew
    refine h.quiet ?_
    have hprepares : msg ∈ (servers.nodes nodeID).msgBuffer.prepareMsgs := by
      rcases MsgBuffer.vote_mem_msgs.mp hmem with hmem | hmem
      · exact hmem
      · rw [htyped.commitBuffer msg hmem] at htype
        cases htype
    unfold Node.Awaited
    rw [hstate]
    simp only [hstage]
    exact ⟨msg, hprepares, hnew⟩
  · obtain rfl := Option.some.inj (hstate.symm.trans hcounted)
    exact hprepare htype

theorem AtRest.commitCounted {nodeID : String} (h : servers.AtRest nodeID) {msg : VoteMsg H}
    (hreached : servers.Reached nodeID (.vote msg)) (htype : msg.msgType = .commitMsg)
    (htyped : (servers.nodes nodeID).Typed) {state : State H}
    (hstate : (servers.nodes nodeID).currentState = some state)
    (hstage : state.currentStage = .prepared) :
    msg.nodeID ∈ state.msgLogs.commitMsgs.keys := by
  rcases h.buffered hreached with hmem | ⟨_, hcounted, _, hcommit⟩
  · by_contra hnew
    refine h.quiet ?_
    have hcommits : msg ∈ (servers.nodes nodeID).msgBuffer.commitMsgs := by
      rcases MsgBuffer.vote_mem_msgs.mp hmem with hmem | hmem
      · rw [htyped.prepareBuffer msg hmem] at htype
        cases htype
      · exact hmem
    unfold Node.Awaited
    rw [hstate]
    simp only [hstage]
    exact ⟨msg, hcommits, hnew⟩
  · obtain rfl := Option.some.inj (hstate.symm.trans hcounted)
    exact hcommit htype

/-! All servers at rest. -/

theorem Coherent.reached (h : Coherent digest request servers)
    (hrest : ∀ nodeID ∈ nodeIDs, servers.AtRest nodeID) {nodeID target : String} {msg : Msg H}
    (hnode : nodeID ∈ nodeIDs)
    (howes : Owes digest request nodeID (servers.nodes nodeID).currentState msg)
    (htarget : target ∈ otherNodes nodeID) : servers.Reached target msg := by
  rcases h.owed nodeID msg howes target htarget with ⟨targets, hposting, _⟩ | hreached
  · rw [(hrest nodeID hnode).posting] at hposting
    cases hposting
  · exact hreached

theorem Coherent.started (h : Coherent digest request servers)
    (hrequest : servers.request = none) (hrest : ∀ nodeID ∈ nodeIDs, servers.AtRest nodeID)
    {nodeID : String} (hnode : nodeID ∈ nodeIDs) :
    ∃ state, (servers.nodes nodeID).currentState = some state := by
  rw [← Option.ne_none_iff_exists']
  have hprimary : (servers.nodes primary).currentState ≠ none := by
    rcases h.requested with hopen | ⟨msg, hreached⟩
    · exact absurd hrequest hopen
    · exact (hrest primary (by decide)).started hreached (by simp)
  by_cases hfirst : nodeID = primary
  · rw [hfirst]
    exact hprimary
  · have howes : Owes digest request primary (servers.nodes primary).currentState
        (.prePrepare (prePrepareOf digest request)) := ⟨rfl, hprimary, rfl⟩
    have hreached := h.reached hrest (by decide) howes (mem_otherNodes.mpr ⟨hnode, hfirst⟩)
    exact (hrest nodeID hnode).started hreached (by simp)

theorem length_backups : ∀ nodeID ∈ nodeIDs,
    2 ≤ ((otherNodes nodeID).filter (· ≠ primary)).length := by decide

theorem length_otherNodes : ∀ nodeID ∈ nodeIDs, 2 ≤ (otherNodes nodeID).length := by decide

theorem nodup_otherNodes (nodeID : String) : (otherNodes nodeID).Nodup :=
  List.Nodup.filter _ (by decide)

/-- At rest every node has two votes to prepare. -/
theorem Coherent.prepared (h : Coherent digest request servers)
    (hrequest : servers.request = none) (hrest : ∀ nodeID ∈ nodeIDs, servers.AtRest nodeID)
    {nodeID : String} (hnode : nodeID ∈ nodeIDs) {state : State H}
    (hstate : (servers.nodes nodeID).currentState = some state) :
    state.currentStage = .prepared ∨ state.currentStage = .committed := by
  have hfits := (h.faultless nodeID).fits state hstate
  have hpast : state.currentStage ≠ .prePrepared := by
    intro hstage
    have hvoted : (otherNodes nodeID).filter (· ≠ primary) ⊆ state.msgLogs.prepareMsgs.keys := by
      intro voter hvoter
      obtain ⟨hother, hbackup⟩ := List.mem_filter.mp hvoter
      obtain ⟨hvoter, hne⟩ := mem_otherNodes.mp hother
      obtain ⟨state', hstate'⟩ := h.started hrequest hrest hvoter
      have howes : Owes digest request voter (servers.nodes voter).currentState
          (.vote (voteOf digest request voter .prepareMsg)) :=
        .inl ⟨of_decide_eq_true hbackup, by simp [hstate'], rfl⟩
      have hreached := h.reached hrest hvoter howes (mem_otherNodes.mpr ⟨hnode, hne.symm⟩)
      exact (hrest nodeID hnode).prepareCounted hreached rfl (h.faultless nodeID).typed hstate
        hstage
    have hfew := hfits.prepares.mp hstage
    have hmany := (List.subperm_of_subset ((nodup_otherNodes nodeID).filter _) hvoted).length_le
    have hbackups := length_backups nodeID hnode
    omega
  cases hstage : state.currentStage with
  | idle => exact absurd hstage hfits.started
  | prePrepared => exact absurd hstage hpast
  | prepared => exact .inl rfl
  | committed => exact .inr rfl

theorem Coherent.allCommitted (h : Coherent digest request servers)
    (hrequest : servers.request = none) (hrest : ∀ nodeID ∈ nodeIDs, servers.AtRest nodeID) :
    servers.AllCommitted := by
  intro nodeID hnode
  obtain ⟨state, hstate⟩ := h.started hrequest hrest hnode
  have hfits := (h.faultless nodeID).fits state hstate
  rw [Node.stage_of_currentState hstate]
  rcases h.prepared hrequest hrest hnode hstate with hstage | hstage
  · have hvoted : otherNodes nodeID ⊆ state.msgLogs.commitMsgs.keys := by
      intro voter hother
      obtain ⟨hvoter, hne⟩ := mem_otherNodes.mp hother
      obtain ⟨state', hstate'⟩ := h.started hrequest hrest hvoter
      have hstage' := h.prepared hrequest hrest hvoter hstate'
      have howes : Owes digest request voter (servers.nodes voter).currentState
          (.vote (voteOf digest request voter .commitMsg)) :=
        .inr ⟨⟨state', hstate', hstage'⟩, rfl⟩
      have hreached := h.reached hrest hvoter howes (mem_otherNodes.mpr ⟨hnode, hne.symm⟩)
      exact (hrest nodeID hnode).commitCounted hreached rfl (h.faultless nodeID).typed hstate
        hstage
    have hmany := (List.subperm_of_subset (nodup_otherNodes nodeID) hvoted).length_le
    have hothers := length_otherNodes nodeID hnode
    rw [hfits.commits.mpr (by omega)]
  · rw [hstage]

theorem Ring.not_allCommitted (h : servers.Ring) (hcoherent : Coherent digest request servers) :
    ¬ servers.AllCommitted := by
  obtain ⟨nodeID, hnode⟩ := h
  obtain ⟨target, ⟨msg, targets, hposting, _⟩, _⟩ := hnode.next
  obtain ⟨hmember, _, _, _, hstage⟩ := hcoherent.posting nodeID msg _ hposting
  exact fun hall => hstage (hall nodeID hmember)

section Run

variable [DecidableEq H]

/-- Where nothing can be done, a node that posts waits for another that posts. -/
theorem Coherent.waits (h : Coherent digest request servers)
    (hstuck : ¬ ∃ a, servers.Useful a ∧ (servers.step digest a).isSome) {nodeID : String}
    (hposts : servers.posting nodeID ≠ none) :
    ∃ target ∈ nodeIDs, servers.posting target ≠ none ∧ servers.Waits nodeID target := by
  obtain ⟨⟨msg, targets⟩, hposting⟩ := Option.ne_none_iff_exists'.mp hposts
  obtain ⟨_, _, hopen, hothers, _⟩ := h.posting nodeID msg targets hposting
  obtain ⟨target, rest, rfl⟩ := List.exists_cons_of_ne_nil hopen
  have htarget := (mem_otherNodes.mp (hothers List.mem_cons_self)).1
  have hrunning := (h.faultless target).running
  have hdelivering : (servers.nodes target).delivering ≠ [] := by
    intro hidle
    have hentrance : servers.entrance target ≠ none := by
      intro hentrance
      exact hstuck ⟨.send nodeID, trivial, isSome_send hposting ⟨hentrance, hidle⟩⟩
    exact hstuck ⟨.routeMsg target, trivial, isSome_routeMsg htarget hrunning hentrance hidle⟩
  have hblocked : servers.posting target ≠ none := by
    intro hfree
    by_cases hresolving : (servers.nodes target).resolving = .idle
    · exact hstuck ⟨.deliver target, trivial,
        isSome_deliver htarget hrunning hfree hdelivering hresolving⟩
    · exact hstuck ⟨.resolve target 0 _, trivial,
        isSome_resolve htarget hrunning hfree hresolving⟩
  exact ⟨target, htarget, hblocked, msg, rest, hposting, hdelivering, hblocked⟩

theorem Coherent.not_posting (h : Coherent digest request servers)
    (hring : ¬ servers.Ring) (hstuck : ¬ ∃ a, servers.Useful a ∧ (servers.step digest a).isSome)
    {nodeID : String} (hnode : nodeID ∈ nodeIDs) : servers.posting nodeID = none := by
  by_contra hposts
  have hposting (other : String) : other ∈ nodeIDs.filter (fun nodeID =>
      (servers.posting nodeID).isSome) ↔ other ∈ nodeIDs ∧ servers.posting other ≠ none := by
    rw [List.mem_filter, Option.isSome_iff_ne_none]
  refine hring ?_
  obtain ⟨first, _, hfirst⟩ := Lib.exists_onRing (r := servers.Waits)
    (List.ne_nil_of_mem ((hposting nodeID).mpr ⟨hnode, hposts⟩)) (by
      intro other hmem
      obtain ⟨target, htarget, hblocked, hwaits⟩ := h.waits hstuck ((hposting other).mp hmem).2
      exact ⟨target, (hposting target).mpr ⟨htarget, hblocked⟩, hwaits⟩)
  exact ⟨first, hfirst⟩

theorem Coherent.atRest (h : Coherent digest request servers)
    (hring : ¬ servers.Ring) (hstuck : ¬ ∃ a, servers.Useful a ∧ (servers.step digest a).isSome)
    {nodeID : String} (hnode : nodeID ∈ nodeIDs) : servers.AtRest nodeID := by
  have hposting := h.not_posting hring hstuck hnode
  have hrunning := (h.faultless nodeID).running
  have hentrance : servers.entrance nodeID = none := by
    by_contra hentered
    obtain ⟨msg, hmsg⟩ := Option.ne_none_iff_exists'.mp hentered
    exact hstuck ⟨.routeMsg nodeID, trivial,
      isSome_routeMsg hnode hrunning hentered (h.entrance nodeID msg hmsg).2⟩
  have hresolving : (servers.nodes nodeID).resolving = .idle := by
    by_contra hbusy
    exact hstuck ⟨.resolve nodeID 0 _, trivial, isSome_resolve hnode hrunning hposting hbusy⟩
  have hdelivering : (servers.nodes nodeID).delivering = [] := by
    by_contra hbatch
    exact hstuck ⟨.deliver nodeID, trivial,
      isSome_deliver hnode hrunning hposting hbatch hresolving⟩
  refine ⟨hposting, hentrance, hdelivering, hresolving, ?_⟩
  intro hawaited
  exact hstuck ⟨.alarm nodeID, hawaited,
    isSome_alarm hnode hrunning ⟨hentrance, hdelivering⟩⟩

theorem Coherent.live (h : Coherent digest request servers) (hring : ¬ servers.Ring) :
    servers.Live digest := by
  by_contra hdead
  obtain ⟨huncommitted, hstuck⟩ := not_or.mp hdead
  have hrest : ∀ nodeID ∈ nodeIDs, servers.AtRest nodeID :=
    fun nodeID hnode => h.atRest hring hstuck hnode
  have hprimary := hrest primary (by decide)
  refine huncommitted (h.allCommitted ?_ hrest)
  by_contra hopen
  exact hstuck ⟨.getReq, trivial,
    isSome_getReq hopen ⟨hprimary.entrance, hprimary.delivering⟩⟩

/-! A ring stays. -/

theorem Stepped.posting {a : ServersAction} (h : Stepped digest servers a servers')
    {nodeID target : String} {msg : Msg H} {targets : List String}
    (hposting : servers.posting nodeID = some (msg, target :: targets))
    (hblocked : (servers.nodes target).delivering ≠ []) :
    servers'.posting nodeID = some (msg, target :: targets) := by
  cases h with
  | requested _ _ _ | routed _ _ _ _ _ | alarmed _ _ _ _ | delivered _ _ _ _ _ _ _ =>
      exact hposting
  | sent sender _ _ _ hsending hfree =>
      by_cases hnode : nodeID = sender
      · subst hnode
        rw [hposting] at hsending
        cases hsending
        exact absurd hfree.2 hblocked
      · exact (Function.update_of_ne hnode _ _).trans hposting
  | resolved mover _ _ _ _ _ hidle _ _ =>
      by_cases hnode : nodeID = mover
      · subst hnode
        rw [hposting] at hidle
        cases hidle
      · exact (Function.update_of_ne hnode _ _).trans hposting

theorem Stepped.delivering {a : ServersAction} (h : Stepped digest servers a servers')
    {nodeID : String} (hdelivering : (servers.nodes nodeID).delivering ≠ [])
    (hposting : servers.posting nodeID ≠ none) :
    (servers'.nodes nodeID).delivering ≠ [] := by
  have hother {mover : String} {node : Node H} (hmover : nodeID ≠ mover) :
      (Function.update servers.nodes mover node nodeID).delivering ≠ [] := by
    rwa [Function.update_of_ne hmover]
  cases h with
  | requested _ _ _ | sent _ _ _ _ _ _ => exact hdelivering
  | routed mover _ _ _ hidle | alarmed mover _ _ hidle =>
      refine hother ?_
      rintro rfl
      exact hdelivering hidle
  | delivered mover _ _ _ hidle _ _ | resolved mover _ _ _ _ _ hidle _ _ =>
      refine hother ?_
      rintro rfl
      exact hposting hidle

theorem Ring.step {a : ServersAction} (hstepped : Stepped digest servers a servers')
    (h : servers.Ring) : servers'.Ring := by
  obtain ⟨nodeID, hnode⟩ := h
  refine ⟨nodeID, hnode.mono ?_⟩
  rintro waiting target ⟨msg, targets, hposting, hdelivering, hblocked⟩ _ htarget
  obtain ⟨other, ⟨msg', targets', hposting', hdelivering', _⟩, _⟩ := htarget.next
  refine ⟨msg, targets, hstepped.posting hposting hdelivering,
    hstepped.delivering hdelivering hblocked, ?_⟩
  rw [hstepped.posting hposting' hdelivering']
  exact Option.some_ne_none _

/-- The servers can go on until all nodes have committed, unless some of them post in a
ring; these never commit. -/
theorem live_unless_ring {first : RequestMsg} (run : ServersRun digest first) (k : Nat)
    (hk : k ≤ run.length) :
    (¬ (run.state k).Ring → (run.state k).Live digest) ∧
      ((run.state k).Ring → ∀ l, k ≤ l → l ≤ run.length → ¬ (run.state l).AllCommitted) := by
  obtain ⟨request, hcoherent⟩ := run_coherent run
  refine ⟨(hcoherent k hk).live, ?_⟩
  intro hring l hkl hl
  have hstays : ∀ l, k ≤ l → l ≤ run.length → (run.state l).Ring :=
    run.induct_from hring fun j _ hj ih => ih.step (step_stepped (run.steps j hj))
  exact (hstays l hkl hl).not_allCommitted (hcoherent l hl)

end Run

/-! Two runs: one in which two backups post to each other, and one to the end. -/

/-- Nothing is left to do for a node, or its resolver and its dispatcher both wait. -/
def stopped (servers : Servers H) (nodeID : String) : Bool :=
  (servers.entrance nodeID).isNone &&
    match servers.posting nodeID, (servers.nodes nodeID).resolving with
    | none, .idle => (servers.nodes nodeID).delivering.isEmpty &&
        (servers.nodes nodeID).msgBuffer.msgs.isEmpty
    | some (_, target :: _), _ => !(servers.nodes nodeID).delivering.isEmpty &&
        !(servers.nodes target).delivering.isEmpty
    | _, _ => false

theorem stopped_cases {nodeID : String} (h : servers.stopped nodeID = true) :
    servers.entrance nodeID = none ∧
      (servers.posting nodeID = none ∧ (servers.nodes nodeID).resolving = .idle ∧
        (servers.nodes nodeID).delivering = [] ∧ (servers.nodes nodeID).msgBuffer.msgs = [] ∨
      ∃ msg target targets, servers.posting nodeID = some (msg, target :: targets) ∧
        (servers.nodes nodeID).delivering ≠ [] ∧ (servers.nodes target).delivering ≠ []) := by
  unfold stopped at h
  rw [Bool.and_eq_true, Option.isNone_iff_eq_none] at h
  refine ⟨h.1, ?_⟩
  have hnode := h.2
  split at hnode
  · rename_i hposting hresolving
    rw [Bool.and_eq_true, List.isEmpty_iff, List.isEmpty_iff] at hnode
    exact .inl ⟨hposting, hresolving, hnode⟩
  · rename_i msg target targets hposting
    refine .inr ⟨msg, target, targets, hposting, ?_⟩
    simpa using hnode
  · cases hnode

theorem not_awaited {node : Node H} (h : node.msgBuffer.msgs = []) : ¬ node.Awaited := by
  simp only [MsgBuffer.msgs, List.append_eq_nil_iff, List.map_eq_nil_iff] at h
  obtain ⟨⟨⟨hrequests, hprePrepares⟩, hprepares⟩, hcommits⟩ := h
  unfold Node.Awaited
  split
  · simp [hrequests, hprePrepares]
  · split
    · simp [hprepares]
    · simp [hcommits]
    · simp

theorem Coherent.not_live [DecidableEq H] (h : Coherent digest request servers)
    (hrequest : servers.request = none)
    (hstopped : ∀ nodeID ∈ nodeIDs, servers.stopped nodeID = true)
    (huncommitted : ¬ servers.AllCommitted) : ¬ servers.Live digest := by
  rintro (hall | ⟨a, huseful, hsome⟩)
  · exact huncommitted hall
  · obtain ⟨servers', hstep⟩ := Option.isSome_iff_exists.mp hsome
    cases step_stepped hstep with
    | requested first hfirst hfree =>
        rw [hrequest] at hfirst
        cases hfirst
    | sent nodeID msg target targets hposting hfree =>
        have hnode := (h.posting nodeID msg _ hposting).1
        obtain ⟨_, ⟨hidle, _⟩ | ⟨_, _, _, hposting', _, hblocked⟩⟩ :=
          stopped_cases (hstopped nodeID hnode)
        · rw [hposting] at hidle
          cases hidle
        · rw [hposting] at hposting'
          cases hposting'
          exact hblocked hfree.2
    | routed nodeID msg hnode hentrance hidle =>
        rw [(stopped_cases (hstopped nodeID hnode)).1] at hentrance
        cases hentrance
    | alarmed nodeID hnode hentrance hidle =>
        obtain ⟨_, ⟨_, _, _, hbuffer⟩ | ⟨_, _, _, _, hblocked, _⟩⟩ :=
          stopped_cases (hstopped nodeID hnode)
        · exact not_awaited hbuffer huseful
        · exact hblocked hidle
    | delivered nodeID batch batches hnode hposting hdelivering hresolving =>
        obtain ⟨_, ⟨_, _, hidle, _⟩ | ⟨_, _, _, hposting', _⟩⟩ :=
          stopped_cases (hstopped nodeID hnode)
        · rw [hdelivering] at hidle
          cases hidle
        · rw [hposting] at hposting'
          cases hposting'
    | resolved nodeID now order node posted hnode hposting horder hresolve =>
        obtain ⟨_, ⟨_, hresolving, _⟩ | ⟨_, _, _, hposting', _⟩⟩ :=
          stopped_cases (hstopped nodeID hnode)
        · simp [Node.resolveMsg, hresolving] at hresolve
        · rw [hposting] at hposting'
          cases hposting'

theorem Coherent.not_ring (h : Coherent digest request servers)
    (hnone : ∀ nodeID ∈ nodeIDs, ∀ target, ¬ servers.Waits nodeID target) :
    ¬ servers.Ring := by
  rintro ⟨nodeID, hnode⟩
  obtain ⟨target, ⟨msg, targets, hposting, hdeaf⟩, _⟩ := hnode.next
  exact hnone nodeID (h.posting nodeID msg _ hposting).1 target ⟨msg, targets, hposting, hdeaf⟩

def waiting (servers : Servers H) (nodeID : String) : Bool :=
  match servers.posting nodeID with
  | some (_, target :: _) =>
      !(servers.nodes target).delivering.isEmpty && (servers.posting target).isSome
  | _ => false

theorem Waits.waiting {nodeID target : String} (h : servers.Waits nodeID target) :
    servers.waiting nodeID = true := by
  obtain ⟨msg, targets, hposting, hdelivering, hblocked⟩ := h
  simp only [Servers.waiting, hposting]
  rw [Bool.and_eq_true, Option.isSome_iff_ne_none]
  exact ⟨by simpa using hdelivering, hblocked⟩

section Runs

def postedRequest : RequestMsg := ⟨0, "client", "op", 0⟩

def taken (nodeID target : String) : List ServersAction := [.send nodeID, .routeMsg target]

/-- The dispatcher of `target` makes a batch, and its resolver takes `count` looks at it. -/
def resolved (nodeID target : String) (count : Nat) (order : List String) :
    List ServersAction :=
  taken nodeID target ++ .deliver target :: List.replicate count (.resolve target 5 order)

def ended (nodeID : String) : ServersAction := .resolve nodeID 5 (otherNodes nodeID)

def prePreparedActs : List ServersAction :=
  [.getReq, .routeMsg "Apple", .deliver "Apple", .resolve "Apple" 5 ["MS", "Google", "IBM"]] ++
    taken "Apple" "MS" ++ taken "Apple" "Google" ++ taken "Apple" "IBM" ++
    [ended "Apple", .deliver "MS", .deliver "Google", .deliver "IBM"]

/-- The vote of IBM comes to MS and Google when both have begun to broadcast their own. -/
def ringActs : List ServersAction :=
  prePreparedActs ++ [.resolve "MS" 5 ["Google", "IBM", "Apple"],
    .resolve "Google" 5 ["MS", "IBM", "Apple"], .resolve "IBM" 5 ["MS", "Google", "Apple"]] ++
    taken "IBM" "MS" ++ taken "IBM" "Google" ++
    resolved "IBM" "Apple" 2 (otherNodes "Apple") ++ [ended "IBM"]

/-- One backup after the other broadcasts. -/
def turnsActs : List ServersAction :=
  prePreparedActs ++ [.resolve "MS" 5 ["Google", "IBM", "Apple"]] ++
    taken "MS" "Google" ++ taken "MS" "IBM" ++
    resolved "MS" "Apple" 2 (otherNodes "Apple") ++ [ended "MS"] ++
    [.resolve "Google" 5 ["MS", "IBM", "Apple"]] ++
    resolved "Google" "MS" 2 (otherNodes "MS") ++ taken "Google" "IBM" ++
    resolved "Google" "Apple" 1 ["MS", "Google", "IBM"] ++ [ended "Google"] ++
    taken "Apple" "MS" ++ taken "Apple" "Google" ++ taken "Apple" "IBM" ++ [ended "Apple"] ++
    [.resolve "IBM" 5 ["MS", "Google", "Apple"]] ++
    resolved "IBM" "MS" 1 ["Apple", "Google", "IBM"] ++
    resolved "MS" "Apple" 2 (otherNodes "Apple") ++
    taken "MS" "Google" ++ taken "MS" "IBM" ++ [ended "MS"] ++
    resolved "IBM" "Google" 2 ["Apple", "MS", "IBM"] ++
    resolved "Google" "Apple" 2 (otherNodes "Apple") ++
    resolved "Google" "MS" 3 (otherNodes "MS") ++ taken "Google" "IBM" ++ [ended "Google"] ++
    taken "IBM" "Apple" ++ [ended "IBM", .alarm "IBM", .deliver "IBM", ended "IBM",
      .resolve "IBM" 5 ["Apple", "MS", "Google"]] ++
    taken "IBM" "Apple" ++ taken "IBM" "MS" ++ taken "IBM" "Google" ++
    [.deliver "Google", ended "Google", ended "Google", ended "Google", ended "Google",
      ended "IBM", .alarm "IBM", .deliver "IBM", ended "IBM", ended "IBM", ended "IBM",
      ended "IBM"]

theorem ringActs_exec :
    (Lib.exec (step (id : Option RequestMsg → _)) (start postedRequest) ringActs).map
      (fun servers => (servers.request, nodeIDs.map servers.stopped,
        (servers.nodes "Apple").stage)) =
      some (none, [true, true, true, true], some .prePrepared) := by decide +kernel

theorem turnsActs_check :
    Lib.checkStates (step (id : Option RequestMsg → _))
      (fun servers => nodeIDs.all fun nodeID => !servers.waiting nodeID)
      (start postedRequest) turnsActs = true := by decide +kernel

theorem turnsActs_exec :
    (Lib.exec (step (id : Option RequestMsg → _)) (start postedRequest) turnsActs).map
      (fun servers => nodeIDs.all fun nodeID =>
        (servers.nodes nodeID).stage = some .committed) = some true := by decide +kernel

theorem live_to_the_end : ∃ run : ServersRun (id : Option RequestMsg → _) postedRequest,
    (∀ k, k ≤ run.length → (run.state k).Live id) ∧
      (run.state run.length).AllCommitted := by
  have hsome := Lib.exec_isSome_of_checkStates turnsActs_check
  refine ⟨.ofActions turnsActs hsome, ?_, ?_⟩
  · intro k hk
    obtain ⟨request, hcoherent⟩ := run_coherent (Lib.Run.ofActions turnsActs hsome)
    refine (live_unless_ring _ k hk).1 ((hcoherent k hk).not_ring ?_)
    intro nodeID hnode target hwaits
    have hcheck := List.all_eq_true.mp (Lib.Run.ofActions_check turnsActs_check k) nodeID hnode
    rw [hwaits.waiting] at hcheck
    cases hcheck
  · have hlast := turnsActs_exec
    rw [Lib.Run.ofActions_last hsome, Option.map_some, Option.some.injEq,
      List.all_eq_true] at hlast
    exact fun nodeID hnode => of_decide_eq_true (hlast nodeID hnode)

theorem posts_in_a_ring : ¬ ∀ (first : RequestMsg)
    (run : ServersRun (id : Option RequestMsg → _) first) (k : Nat), k ≤ run.length →
      (run.state k).Live id := by
  intro h
  obtain ⟨run, _, hlast⟩ := Lib.Run.exists_of_exec ringActs_exec
  obtain ⟨hrequest, hstopped, hstage⟩ : (run.state run.length).request = none ∧
      nodeIDs.map (run.state run.length).stopped = [true, true, true, true] ∧
      ((run.state run.length).nodes "Apple").stage = some .prePrepared := by
    simpa using hlast
  obtain ⟨request, hcoherent⟩ := run_coherent run
  refine (hcoherent _ (Nat.le_refl _)).not_live hrequest ?_ ?_ (h _ run _ (Nat.le_refl _))
  · intro nodeID hnode
    have hmem : (run.state run.length).stopped nodeID ∈
        nodeIDs.map (run.state run.length).stopped := List.mem_map.mpr ⟨nodeID, hnode, rfl⟩
    rw [hstopped] at hmem
    simpa using hmem
  · intro hall
    rw [hall "Apple" (by decide)] at hstage
    cases hstage

end Runs

end Servers

end BlockchainTutorial.Pbft
