import BlockchainTutorial.Pbft.Agreement
import BlockchainTutorial.Pbft.Faultless

namespace BlockchainTutorial.Pbft

/-! No message is lost between the servers: what a node owes to another is on its way,
is kept there, or has been taken in. -/

variable {H : Type}

namespace Node

theorem currentState_routeMsg (node : Node H) (msg : Msg H) :
    (node.routeMsg msg).currentState = node.currentState := by
  obtain ⟨buffer, batches, hroute⟩ := routeMsg_eq node msg
  rw [hroute]

theorem currentState_routeMsgWhenAlarmed (node : Node H) :
    node.routeMsgWhenAlarmed.currentState = node.currentState := by
  obtain ⟨batches, hroute⟩ := routeMsgWhenAlarmed_eq node
  rw [hroute]

theorem Acted.created [DecidableEq H] {digest : Option RequestMsg → H} {node node' : Node H}
    {a : NodeAction H} {posted : List (Posted H)} (h : Acted digest node a node' posted)
    (hnone : node.currentState = none) {state : State H}
    (hstate : node'.currentState = some state) :
    ∃ request, state.msgLogs.reqMsg = some request := by
  rcases h.turn_or_still with ⟨now, _, hturn⟩ | ⟨_, hstill⟩
  · cases hturn with
    | started request now _ | refused request _ | accepted msg request _ hdigest =>
        obtain rfl := Option.some.inj hstate
        exact ⟨_, rfl⟩
    | _ => simp_all
  · rw [hstill.currentState_eq, hnone] at hstate
    cases hstate

theorem Turn.delivering_eq [DecidableEq H] {digest : Option RequestMsg → H} {node node' : Node H}
    {posted : List (Posted H)} (h : Turn digest node node' posted) :
    node'.delivering = node.delivering := by
  cases h <;> rfl

end Node

namespace Servers

section Steps

variable [DecidableEq H]

inductive Stepped (digest : Option RequestMsg → H) (servers : Servers H) :
    ServersAction → Servers H → Prop
  | requested (request : RequestMsg) (hrequest : servers.request = some request)
      (hfree : servers.Free primary) :
      Stepped digest servers .getReq
        ({ servers with request := none }.receive primary (.request request))
  | sent (nodeID : String) (msg : Msg H) (target : String) (targets : List String)
      (hposting : servers.posting nodeID = some (msg, target :: targets))
      (hfree : servers.Free target) :
      Stepped digest servers (.send nodeID)
        ({ servers with
          posting := Function.update servers.posting nodeID
            (if targets = [] then none else some (msg, targets)) }.receive target msg)
  | routed (nodeID : String) (msg : Msg H) (hnode : nodeID ∈ nodeIDs)
      (hentrance : servers.entrance nodeID = some msg)
      (hidle : (servers.nodes nodeID).delivering = []) :
      Stepped digest servers (.routeMsg nodeID)
        { servers with
          nodes := Function.update servers.nodes nodeID ((servers.nodes nodeID).routeMsg msg)
          entrance := Function.update servers.entrance nodeID none }
  | alarmed (nodeID : String) (hnode : nodeID ∈ nodeIDs)
      (hentrance : servers.entrance nodeID = none)
      (hidle : (servers.nodes nodeID).delivering = []) :
      Stepped digest servers (.alarm nodeID)
        { servers with
          nodes := Function.update servers.nodes nodeID
            (servers.nodes nodeID).routeMsgWhenAlarmed }
  | delivered (nodeID : String) (batch : Delivery H) (batches : List (Delivery H))
      (hnode : nodeID ∈ nodeIDs) (hposting : servers.posting nodeID = none)
      (hdelivering : (servers.nodes nodeID).delivering = batch :: batches)
      (hresolving : (servers.nodes nodeID).resolving = .idle) :
      Stepped digest servers (.deliver nodeID)
        { servers with
          nodes := Function.update servers.nodes nodeID
            { servers.nodes nodeID with
              delivering := batches
              resolving := Node.receive batch } }
  | resolved (nodeID : String) (now : Int) (order : List String) (node : Node H)
      (posted : List (Posted H)) (hnode : nodeID ∈ nodeIDs)
      (hposting : servers.posting nodeID = none) (horder : order.Perm (otherNodes nodeID))
      (hresolve : (servers.nodes nodeID).resolveMsg digest now = some (node, posted)) :
      Stepped digest servers (.resolve nodeID now order)
        { servers with
          nodes := Function.update servers.nodes nodeID node
          posting := Function.update servers.posting nodeID
            ((broadcastOf posted).map fun msg => (msg, order)) }

variable {digest : Option RequestMsg → H} {servers servers' : Servers H}

theorem act_eq_some {nodeID : String} {a : NodeAction H} {acted : Node H × List (Posted H)}
    (h : servers.act digest nodeID a = some acted) :
    nodeID ∈ nodeIDs ∧ (servers.nodes nodeID).act digest a = some acted := by
  unfold act at h
  split at h
  · rename_i hguard
    exact ⟨hguard.1, h⟩
  · cases h

theorem step_stepped {a : ServersAction} (h : servers.step digest a = some servers') :
    Stepped digest servers a servers' := by
  unfold step at h
  cases a with
  | getReq =>
      dsimp only at h
      split at h
      · rename_i request hrequest
        split at h
        · rename_i hfree
          cases h
          exact .requested request hrequest hfree
        · cases h
      · cases h
  | send nodeID =>
      dsimp only at h
      split at h
      · rename_i msg target targets hposting
        split at h
        · rename_i hfree
          cases h
          exact .sent nodeID msg target targets hposting hfree
        · cases h
      · cases h
  | routeMsg nodeID =>
      dsimp only at h
      split at h
      · rename_i msg hentrance
        obtain ⟨acted, hact, rfl⟩ := Option.map_eq_some_iff.mp h
        obtain ⟨hnode, hact⟩ := act_eq_some hact
        unfold Node.act at hact
        dsimp only at hact
        split at hact
        · rename_i hidle
          cases hact
          exact .routed nodeID msg hnode hentrance hidle
        · cases hact
      · cases h
  | alarm nodeID =>
      dsimp only at h
      split at h
      · rename_i hentrance
        obtain ⟨acted, hact, rfl⟩ := Option.map_eq_some_iff.mp h
        obtain ⟨hnode, hact⟩ := act_eq_some hact
        unfold Node.act at hact
        dsimp only at hact
        split at hact
        · rename_i hidle
          cases hact
          exact .alarmed nodeID hnode hentrance hidle
        · cases hact
      · cases h
  | deliver nodeID =>
      dsimp only at h
      split at h
      · rename_i hposting
        obtain ⟨acted, hact, rfl⟩ := Option.map_eq_some_iff.mp h
        obtain ⟨hnode, hact⟩ := act_eq_some hact
        unfold Node.act at hact
        dsimp only at hact
        split at hact
        · rename_i batch batches hdelivering hresolving
          cases hact
          exact .delivered nodeID batch batches hnode hposting hdelivering hresolving
        · cases hact
      · cases h
  | resolve nodeID now order =>
      dsimp only at h
      split at h
      · rename_i hposting
        split at h
        · rename_i horder
          obtain ⟨acted, hact, rfl⟩ := Option.map_eq_some_iff.mp h
          obtain ⟨hnode, hact⟩ := act_eq_some hact
          exact .resolved nodeID now order acted.1 acted.2 hnode hposting horder hact
        · cases h
      · cases h

end Steps

/-! Where a message of one node to another is. -/

def OnWay (servers : Servers H) (nodeID target : String) (msg : Msg H) : Prop :=
  ∃ targets, servers.posting nodeID = some (msg, targets) ∧ target ∈ targets

def Reached (servers : Servers H) (target : String) (msg : Msg H) : Prop :=
  servers.entrance target = some msg ∨ msg ∈ (servers.nodes target).msgs ∨
    Absorbed (servers.nodes target).currentState msg

structure Coherent (digest : Option RequestMsg → H) (request : RequestMsg)
    (servers : Servers H) : Prop where
  faultless : ∀ nodeID, Node.Faultless digest request nodeID (servers.nodes nodeID)
  entrance : ∀ nodeID msg, servers.entrance nodeID = some msg →
    Proper digest request nodeID msg ∧ (servers.nodes nodeID).delivering = []
  posting : ∀ nodeID msg targets, servers.posting nodeID = some (msg, targets) →
    nodeID ∈ nodeIDs ∧ Owes digest request nodeID (servers.nodes nodeID).currentState msg ∧
      targets ≠ [] ∧ targets ⊆ otherNodes nodeID ∧
      (servers.nodes nodeID).stage ≠ some .committed
  requested : servers.request ≠ none ∨ ∃ msg, servers.Reached primary (.request msg)
  owed : ∀ nodeID msg, Owes digest request nodeID (servers.nodes nodeID).currentState msg →
    ∀ target ∈ otherNodes nodeID,
      servers.OnWay nodeID target msg ∨ servers.Reached target msg

variable {digest : Option RequestMsg → H} {request : RequestMsg} {servers servers' : Servers H}

theorem coherent_start (first : RequestMsg) :
    Coherent digest request (start first : Servers H) := by
  refine ⟨Node.faultless_newNode, ?_, ?_, .inl (Option.some_ne_none _), ?_⟩
  · intro nodeID msg hentrance
    cases hentrance
  · intro nodeID msg targets hposting
    cases hposting
  · intro nodeID msg howes
    cases msg with
    | request msg => exact howes.elim
    | prePrepare msg => exact absurd rfl howes.2.1
    | vote msg =>
        rcases howes with ⟨_, hnone, _⟩ | ⟨⟨_, hstate, _⟩, _⟩
        · exact absurd rfl hnone
        · cases hstate

theorem mem_otherNodes {nodeID target : String} :
    target ∈ otherNodes nodeID ↔ target ∈ nodeIDs ∧ target ≠ nodeID := by
  rw [otherNodes, List.mem_filter, decide_eq_true_eq]

theorem otherNodes_ne_nil (nodeID : String) : otherNodes nodeID ≠ [] := by
  by_cases hnode : nodeID = "MS"
  · have hother : "Google" ∈ otherNodes nodeID :=
      mem_otherNodes.mpr ⟨by decide, by rw [hnode]; decide⟩
    exact List.ne_nil_of_mem hother
  · exact List.ne_nil_of_mem (mem_otherNodes.mpr ⟨by decide, Ne.symm hnode⟩)

/-- A dispatcher takes a message, and every other message stays where it is. -/
structure Takes (target : String) (msg : Msg H) (servers servers' : Servers H) : Prop where
  free : servers.Free target
  nodes : servers'.nodes = servers.nodes
  entrance : servers'.entrance = Function.update servers.entrance target (some msg)
  posting : ∀ nodeID msg' targets, servers'.posting nodeID = some (msg', targets) →
    targets ≠ [] ∧ ∃ others, servers.posting nodeID = some (msg', others) ∧ targets ⊆ others
  request : servers.request ≠ none →
    servers'.request ≠ none ∨ target = primary ∧ ∃ msg', msg = .request msg'
  onWay : ∀ nodeID other msg', servers.OnWay nodeID other msg' →
    servers'.OnWay nodeID other msg' ∨ (target = other ∧ msg = msg')

section Takes

variable {target : String} {msg : Msg H}

theorem Takes.taken (h : Takes target msg servers servers') : servers'.Reached target msg := by
  unfold Reached
  rw [h.entrance, Function.update_self]
  exact .inl rfl

theorem Takes.reached (h : Takes target msg servers servers') {other : String} {msg' : Msg H}
    (hreached : servers.Reached other msg') : servers'.Reached other msg' := by
  unfold Reached
  rw [h.nodes]
  rcases hreached with hentered | hreached
  · have hother : other ≠ target := by
      rintro rfl
      rw [h.free.1] at hentered
      cases hentered
    rw [h.entrance, Function.update_of_ne hother]
    exact .inl hentered
  · exact .inr hreached

theorem Coherent.takes (h : Coherent digest request servers)
    (htakes : Takes target msg servers servers') (hproper : Proper digest request target msg) :
    Coherent digest request servers' := by
  refine ⟨htakes.nodes ▸ h.faultless, ?_, ?_, ?_, ?_⟩
  · intro nodeID msg' hentered
    rw [htakes.entrance] at hentered
    rw [htakes.nodes]
    by_cases hnode : nodeID = target
    · subst hnode
      rw [Function.update_self] at hentered
      obtain rfl := Option.some.inj hentered
      exact ⟨hproper, htakes.free.2⟩
    · rw [Function.update_of_ne hnode] at hentered
      exact h.entrance nodeID msg' hentered
  · intro nodeID msg' targets hposted
    obtain ⟨hopen, others, hposted, hsubset⟩ := htakes.posting nodeID msg' targets hposted
    obtain ⟨hnode, howes, _, hothers, hstage⟩ := h.posting nodeID msg' others hposted
    rw [htakes.nodes]
    exact ⟨hnode, howes, hopen, fun other hmem => hothers (hsubset hmem), hstage⟩
  · rcases h.requested with hopen | ⟨msg', hmsg'⟩
    · rcases htakes.request hopen with hopen | ⟨rfl, msg', rfl⟩
      · exact .inl hopen
      · exact .inr ⟨msg', htakes.taken⟩
    · exact .inr ⟨msg', htakes.reached hmsg'⟩
  · intro nodeID msg' howes other hother
    rw [htakes.nodes] at howes
    rcases h.owed nodeID msg' howes other hother with hsent | hmsg'
    · rcases htakes.onWay nodeID other msg' hsent with hsent | ⟨rfl, rfl⟩
      · exact .inl hsent
      · exact .inr htakes.taken
    · exact .inr (htakes.reached hmsg')

end Takes

variable (digest request) in
/-- One node makes a step, and posts what it then owes. -/
structure Moves (nodeID : String) (node : Node H) (posted : Option (Msg H))
    (servers servers' : Servers H) : Prop where
  member : nodeID ∈ nodeIDs
  moved : Node.Moved digest request nodeID (servers.nodes nodeID) node posted
  nodes : servers'.nodes = Function.update servers.nodes nodeID node
  request : servers'.request = servers.request
  others : ∀ other, other ≠ nodeID → servers'.entrance other = servers.entrance other ∧
    servers'.posting other = servers.posting other
  entrance : ∀ msg, servers.entrance nodeID = some msg →
    servers'.entrance nodeID = some msg ∨ msg ∈ node.msgs
  entered : ∀ msg, servers'.entrance nodeID = some msg →
    servers.entrance nodeID = some msg ∧ node.delivering = []
  kept : ∀ post, servers.posting nodeID = some post →
    servers'.posting nodeID = some post ∧
      node.currentState = (servers.nodes nodeID).currentState
  posting : ∀ msg targets, servers'.posting nodeID = some (msg, targets) →
    servers.posting nodeID = some (msg, targets) ∨
      posted = some msg ∧ targets.Perm (otherNodes nodeID)
  posted : ∀ msg, posted = some msg → ∃ targets,
    servers'.posting nodeID = some (msg, targets) ∧ targets.Perm (otherNodes nodeID)

section Moves

variable {nodeID : String} {node : Node H} {posted : Option (Msg H)}

theorem Moves.self (h : Moves digest request nodeID node posted servers servers') :
    servers'.nodes nodeID = node := by
  rw [h.nodes, Function.update_self]

theorem Moves.same (h : Moves digest request nodeID node posted servers servers')
    {other : String} (hother : other ≠ nodeID) : servers'.nodes other = servers.nodes other := by
  rw [h.nodes, Function.update_of_ne hother]

theorem Moves.reached (h : Moves digest request nodeID node posted servers servers')
    {other : String} {msg : Msg H} (hreached : servers.Reached other msg) :
    servers'.Reached other msg := by
  unfold Reached
  by_cases hother : other = nodeID
  · subst hother
    rw [h.self]
    rcases hreached with hmsg | hmsg | hmsg
    · exact (h.entrance msg hmsg).imp_right .inl
    · exact .inr (h.moved.kept msg hmsg)
    · exact .inr (.inr (h.moved.absorbed msg hmsg))
  · rw [h.same hother, (h.others other hother).1]
    exact hreached

theorem Moves.onWay (h : Moves digest request nodeID node posted servers servers')
    {other target : String} {msg : Msg H} (hway : servers.OnWay other target msg) :
    servers'.OnWay other target msg := by
  obtain ⟨targets, hpost, hmem⟩ := hway
  by_cases hother : other = nodeID
  · subst hother
    exact ⟨targets, (h.kept _ hpost).1, hmem⟩
  · exact ⟨targets, (h.others other hother).2.trans hpost, hmem⟩

theorem Moves.owed (hmoves : Moves digest request nodeID node posted servers servers')
    (h : Coherent digest request servers) {other : String} {msg : Msg H}
    (howes : Owes digest request other (servers'.nodes other).currentState msg)
    {target : String} (htarget : target ∈ otherNodes other) :
    servers'.OnWay other target msg ∨ servers'.Reached target msg := by
  have hbefore (hdebt : Owes digest request other (servers.nodes other).currentState msg) :
      servers'.OnWay other target msg ∨ servers'.Reached target msg :=
    (h.owed other msg hdebt target htarget).imp hmoves.onWay hmoves.reached
  by_cases hother : other = nodeID
  · subst hother
    rw [hmoves.self] at howes
    rcases hmoves.moved.owes msg howes with hdebt | hpost
    · exact hbefore hdebt
    · obtain ⟨targets, hpost, horder⟩ := hmoves.posted msg hpost
      exact .inl ⟨targets, hpost, horder.mem_iff.mpr htarget⟩
  · exact hbefore (hmoves.same hother ▸ howes)

theorem Coherent.moves (h : Coherent digest request servers)
    (hmoves : Moves digest request nodeID node posted servers servers') :
    Coherent digest request servers' := by
  refine ⟨?_, ?_, ?_, ?_, fun other msg howes target => hmoves.owed h howes⟩
  · intro other
    by_cases hother : other = nodeID
    · subst hother
      exact hmoves.self ▸ hmoves.moved.faultless
    · exact hmoves.same hother ▸ h.faultless other
  · intro other msg hmsg
    by_cases hother : other = nodeID
    · subst hother
      obtain ⟨hmsg, hidle⟩ := hmoves.entered msg hmsg
      exact ⟨(h.entrance other msg hmsg).1, hmoves.self ▸ hidle⟩
    · rw [hmoves.same hother]
      exact h.entrance other msg ((hmoves.others other hother).1 ▸ hmsg)
  · intro other msg targets hpost
    by_cases hother : other = nodeID
    · subst hother
      rw [Node.stage, hmoves.self]
      rcases hmoves.posting msg targets hpost with hpost | ⟨hpost, horder⟩
      · rw [(hmoves.kept _ hpost).2]
        exact h.posting other msg targets hpost
      · obtain ⟨howes, hstage⟩ := hmoves.moved.posts msg hpost
        refine ⟨hmoves.member, howes, ?_, horder.subset, hstage⟩
        rintro rfl
        exact otherNodes_ne_nil other horder.nil_eq.symm
    · rw [hmoves.same hother]
      exact h.posting other msg targets ((hmoves.others other hother).2 ▸ hpost)
  · rcases h.requested with hopen | ⟨msg, hmsg⟩
    · exact .inl (hmoves.request ▸ hopen)
    · exact .inr ⟨msg, hmoves.reached hmsg⟩

/-- The dispatcher makes a step, or hands a batch over: no state changes. -/
theorem Moves.still (hnode : nodeID ∈ nodeIDs)
    (hmoved : Node.Moved digest request nodeID (servers.nodes nodeID) node none)
    (hstate : node.currentState = (servers.nodes nodeID).currentState)
    (hnodes : servers'.nodes = Function.update servers.nodes nodeID node)
    (hrequest : servers'.request = servers.request)
    (hposting : servers'.posting = servers.posting)
    (hothers : ∀ other, other ≠ nodeID → servers'.entrance other = servers.entrance other)
    (hentrance : ∀ msg, servers.entrance nodeID = some msg →
      servers'.entrance nodeID = some msg ∨ msg ∈ node.msgs)
    (hentered : ∀ msg, servers'.entrance nodeID = some msg →
      servers.entrance nodeID = some msg ∧ node.delivering = []) :
    Moves digest request nodeID node none servers servers' := by
  refine ⟨hnode, hmoved, hnodes, hrequest, ?_, hentrance, hentered, ?_, ?_, ?_⟩
  · exact fun other hother => ⟨hothers other hother, by rw [hposting]⟩
  · exact fun post hpost => ⟨hposting ▸ hpost, hstate⟩
  · exact fun msg targets hpost => .inl (hposting ▸ hpost)
  · intro msg hposted
    cases hposted

end Moves

/-- The first open post of a broadcast is taken, the others stay. -/
theorem takes_send {nodeID target : String} {msg : Msg H} {targets : List String}
    (hposting : servers.posting nodeID = some (msg, target :: targets))
    (hfree : servers.Free target)
    (hopen : ∀ other msg' targets', servers.posting other = some (msg', targets') →
      targets' ≠ []) :
    Takes target msg servers ({ servers with
      posting := Function.update servers.posting nodeID
        (if targets = [] then none else some (msg, targets)) }.receive target msg) := by
  refine ⟨hfree, rfl, rfl, ?_, .inl, ?_⟩
  · intro other msg' targets' hposting'
    by_cases hnode : other = nodeID
    · subst hnode
      simp only [receive, Function.update_self] at hposting'
      split at hposting'
      · cases hposting'
      · rename_i hmore
        cases hposting'
        exact ⟨hmore, _, hposting, List.subset_cons_self _ _⟩
    · simp only [receive, Function.update_of_ne hnode] at hposting'
      exact ⟨hopen other msg' targets' hposting', targets', hposting', List.Subset.refl _⟩
  · rintro other target' msg' ⟨targets', hposting', hmem⟩
    by_cases hnode : other = nodeID
    · subst hnode
      obtain ⟨rfl, rfl⟩ := Prod.mk.inj (Option.some.inj (hposting.symm.trans hposting'))
      rcases List.mem_cons.mp hmem with rfl | hmem
      · exact .inr ⟨rfl, rfl⟩
      · refine .inl ⟨targets, ?_, hmem⟩
        simp only [receive, Function.update_self]
        rw [if_neg (List.ne_nil_of_mem hmem)]
    · refine .inl ⟨targets', ?_, hmem⟩
      simp only [receive, Function.update_of_ne hnode]
      exact hposting'

/-- The resolver looks at a message, and begins the broadcast of its answer. -/
theorem Coherent.moves_resolve [DecidableEq H] (h : Coherent digest request servers)
    {nodeID : String} {now : Int} {order : List String} {node : Node H}
    {posted : List (Posted H)} (hnode : nodeID ∈ nodeIDs)
    (hposting : servers.posting nodeID = none) (horder : order.Perm (otherNodes nodeID))
    (hresolve : (servers.nodes nodeID).resolveMsg digest now = some (node, posted))
    (hmoved : Node.Moved digest request nodeID (servers.nodes nodeID) node
      (broadcastOf posted)) :
    Moves digest request nodeID node (broadcastOf posted) servers
      { servers with
        nodes := Function.update servers.nodes nodeID node
        posting := Function.update servers.posting nodeID
          ((broadcastOf posted).map fun msg => (msg, order)) } := by
  refine ⟨hnode, hmoved, rfl, rfl, ?_, fun msg => .inl, ?_, ?_, ?_, ?_⟩
  · exact fun other hother => ⟨rfl, Function.update_of_ne hother _ _⟩
  · intro msg hentered
    refine ⟨hentered, ?_⟩
    rw [(Node.resolveMsg_turn hresolve).delivering_eq]
    exact (h.entrance nodeID msg hentered).2
  · intro post hpost
    rw [hposting] at hpost
    cases hpost
  · intro msg targets hpost
    dsimp only at hpost
    rw [Function.update_self] at hpost
    obtain ⟨msg', hmsg', hpost⟩ := Option.map_eq_some_iff.mp hpost
    cases hpost
    exact .inr ⟨hmsg', horder⟩
  · intro msg hmsg
    refine ⟨order, ?_, horder⟩
    dsimp only
    rw [Function.update_self, hmsg]
    rfl

theorem Coherent.step [DecidableEq H] (h : Coherent digest request servers) {a : ServersAction}
    (hstepped : Stepped digest servers a servers')
    (hadopted : ∀ state, (servers'.nodes primary).currentState = some state →
      state.msgLogs.reqMsg = some request) :
    Coherent digest request servers' := by
  have hopen (nodeID : String) (msg : Msg H) (targets : List String)
      (hposting : servers.posting nodeID = some (msg, targets)) : targets ≠ [] :=
    (h.posting nodeID msg targets hposting).2.2.1
  cases hstepped with
  | requested first hrequest hfree =>
      have hproper : Proper digest request primary (.request first) := rfl
      refine h.takes ⟨hfree, rfl, rfl, ?_, ?_, ?_⟩ hproper
      · intro nodeID msg targets hposting
        exact ⟨hopen nodeID msg targets hposting, targets, hposting, List.Subset.refl _⟩
      · exact fun _ => .inr ⟨rfl, first, rfl⟩
      · exact fun nodeID other msg hway => .inl hway
  | sent nodeID msg target targets hposting hfree =>
      obtain ⟨_, howes, _, hothers, _⟩ := h.posting nodeID msg _ hposting
      have hother := mem_otherNodes.mp (hothers List.mem_cons_self)
      exact h.takes (takes_send hposting hfree hopen) (howes.proper hother.2)
  | routed nodeID msg hnode hentrance hidle =>
      obtain ⟨hmoved, hmem⟩ :=
        (h.faultless nodeID).routeMsg hidle (h.entrance nodeID msg hentrance).1
      refine h.moves (.still hnode hmoved (Node.currentState_routeMsg _ _) rfl rfl rfl ?_ ?_ ?_)
      · exact fun other hother => Function.update_of_ne hother _ _
      · intro msg' hentrance'
        obtain rfl := Option.some.inj (hentrance.symm.trans hentrance')
        exact .inr hmem
      · intro msg' hentered
        dsimp only at hentered
        rw [Function.update_self] at hentered
        cases hentered
  | alarmed nodeID hnode hentrance hidle =>
      refine h.moves (.still hnode ((h.faultless nodeID).routeMsgWhenAlarmed hidle)
        (Node.currentState_routeMsgWhenAlarmed _) rfl rfl rfl ?_ ?_ ?_)
      · exact fun other hother => rfl
      · exact fun msg hmsg => .inl hmsg
      · intro msg hentered
        dsimp only at hentered
        rw [hentrance] at hentered
        cases hentered
  | delivered nodeID batch batches hnode hposting hdelivering hresolving =>
      refine h.moves (.still hnode ((h.faultless nodeID).delivered hdelivering hresolving)
        rfl rfl rfl rfl ?_ ?_ ?_)
      · exact fun other hother => rfl
      · exact fun msg hmsg => .inl hmsg
      · intro msg hentered
        have hidle := (h.entrance nodeID msg hentered).2
        rw [hdelivering] at hidle
        cases hidle
  | resolved nodeID now order node posted hnode hposting horder hresolve =>
      refine h.moves (h.moves_resolve hnode hposting horder hresolve ?_)
      refine (h.faultless nodeID).resolveMsg hresolve ?_
      rintro rfl state hstate
      refine hadopted state ?_
      dsimp only
      rwa [Function.update_self]

/-! The request that the primary starts the consensus with. -/

section Run

variable [DecidableEq H]

theorem Stepped.moved {a : ServersAction} (h : Stepped digest servers a servers')
    (nodeID : String) : servers'.nodes nodeID = servers.nodes nodeID ∨
      ∃ act posted, Node.Acted digest (servers.nodes nodeID) act (servers'.nodes nodeID)
        posted := by
  have hupdate {mover : String} {node : Node H} {act : NodeAction H} {posted : List (Posted H)}
      (hacted : Node.Acted digest (servers.nodes mover) act node posted) :
      Function.update servers.nodes mover node nodeID = servers.nodes nodeID ∨
        ∃ act posted, Node.Acted digest (servers.nodes nodeID) act
          (Function.update servers.nodes mover node nodeID) posted := by
    by_cases hnode : nodeID = mover
    · subst hnode
      rw [Function.update_self]
      exact .inr ⟨act, posted, hacted⟩
    · exact .inl (Function.update_of_ne hnode _ _)
  cases h with
  | requested first hrequest hfree => exact .inl rfl
  | sent sender msg target targets hposting hfree => exact .inl rfl
  | routed mover msg hnode hentrance hidle => exact hupdate (.routed msg hidle)
  | alarmed mover hnode hentrance hidle => exact hupdate (.alarmed hidle)
  | delivered mover batch batches hnode hposting hdelivering hresolving =>
      exact hupdate (.delivered batch batches hdelivering hresolving)
  | resolved mover now order node posted hnode hposting horder hresolve =>
      exact hupdate (.resolved now node posted (Node.resolveMsg_turn hresolve))

theorem Stepped.adopted {a : ServersAction} (h : Stepped digest servers a servers')
    {nodeID : String} {reqMsg : Option RequestMsg}
    (hstate : ∃ state, (servers.nodes nodeID).currentState = some state ∧
      state.msgLogs.reqMsg = reqMsg) :
    ∃ state, (servers'.nodes nodeID).currentState = some state ∧
      state.msgLogs.reqMsg = reqMsg := by
  obtain ⟨state, hstate, hrequest⟩ := hstate
  rcases h.moved nodeID with hsame | ⟨act, posted, hacted⟩
  · exact ⟨state, hsame ▸ hstate, hrequest⟩
  · obtain ⟨state', hstate', hsame⟩ := hacted.adopted hstate
    exact ⟨state', hstate', hsame.trans hrequest⟩

theorem Stepped.created {a : ServersAction} (h : Stepped digest servers a servers')
    {nodeID : String} (hnone : (servers.nodes nodeID).currentState = none) {state : State H}
    (hstate : (servers'.nodes nodeID).currentState = some state) :
    ∃ request, state.msgLogs.reqMsg = some request := by
  rcases h.moved nodeID with hsame | ⟨act, posted, hacted⟩
  · rw [hsame, hnone] at hstate
    cases hstate
  · exact hacted.created hnone hstate

/-- The primary keeps the request with which it makes its first state. -/
theorem run_adopted {first : RequestMsg} (run : ServersRun digest first) :
    ∃ request, ∀ k, k ≤ run.length → ∀ state,
      ((run.state k).nodes primary).currentState = some state →
        state.msgLogs.reqMsg = some request := by
  have hadopted : ∀ k, k ≤ run.length →
      ((run.state k).nodes primary).currentState = none ∨
      ∃ request state, ((run.state k).nodes primary).currentState = some state ∧
        state.msgLogs.reqMsg = some request := by
    refine run.induct (.inl (by rw [run.starts]; rfl)) ?_
    rintro k hk (hnone | ⟨request, hstate⟩)
    · cases hnow : ((run.state (k + 1)).nodes primary).currentState with
      | none => exact .inl rfl
      | some state =>
          obtain ⟨request, hrequest⟩ := (step_stepped (run.steps k hk)).created hnone hnow
          exact .inr ⟨request, state, rfl, hrequest⟩
    · exact .inr ⟨request, (step_stepped (run.steps k hk)).adopted hstate⟩
  have hcarried (k : Nat) {reqMsg : Option RequestMsg}
      (hstate : ∃ state, ((run.state k).nodes primary).currentState = some state ∧
        state.msgLogs.reqMsg = reqMsg) : ∀ l, k ≤ l → l ≤ run.length →
      ∃ state, ((run.state l).nodes primary).currentState = some state ∧
        state.msgLogs.reqMsg = reqMsg :=
    run.induct_from hstate fun l _ hl ih => (step_stepped (run.steps l hl)).adopted ih
  -- the last state has the request of every earlier one
  rcases hadopted run.length (Nat.le_refl _) with hnone | ⟨request, last, hlast, hrequest⟩
  · refine ⟨first, fun k hk state hstate => ?_⟩
    obtain ⟨last, hlast, _⟩ := hcarried k ⟨state, hstate, rfl⟩ run.length hk (Nat.le_refl _)
    rw [hnone] at hlast
    cases hlast
  · refine ⟨request, fun k hk state hstate => ?_⟩
    obtain ⟨last', hlast', hsame⟩ :=
      hcarried k ⟨state, hstate, rfl⟩ run.length hk (Nat.le_refl _)
    obtain rfl := Option.some.inj (hlast.symm.trans hlast')
    exact hsame.symm.trans hrequest

theorem run_coherent {first : RequestMsg} (run : ServersRun digest first) :
    ∃ request, ∀ k, k ≤ run.length → Coherent digest request (run.state k) := by
  obtain ⟨request, hrequest⟩ := run_adopted run
  refine ⟨request, run.induct ?_ ?_⟩
  · rw [run.starts]
    exact coherent_start first
  · intro k hk ih
    exact ih.step (step_stepped (run.steps k hk)) (hrequest (k + 1) hk)

end Run

end Servers

end BlockchainTutorial.Pbft
