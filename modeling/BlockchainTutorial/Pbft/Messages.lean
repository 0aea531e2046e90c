import BlockchainTutorial.Pbft.CommitOnce

namespace BlockchainTutorial.Pbft

/-! The messages that a node has taken in and not yet looked at: in its buffers, in the
batches of its dispatcher, and in the batch of its resolver. -/

variable {H : Type}

namespace Resolving

def msgs : Resolving H → List (Msg H)
  | .idle => []
  | .requests msgs => msgs.map .request
  | .prePrepares msgs => msgs.map .prePrepare
  | .prepares msgs => msgs.map .vote
  | .commits msgs => msgs.map .vote

/-- The votes of a batch are all to prepare, or all to commit. -/
def Typed : Resolving H → Prop
  | .prepares msgs => ∀ m ∈ msgs, m.msgType = .prepareMsg
  | .commits msgs => ∀ m ∈ msgs, m.msgType = .commitMsg
  | _ => True

theorem Typed.next {batch : Resolving H} (h : batch.Typed) : batch.next.Typed := by
  unfold Resolving.next
  split
  · trivial
  · trivial
  · exact fun m hmem => h m (List.mem_cons_of_mem _ hmem)
  · exact fun m hmem => h m (List.mem_cons_of_mem _ hmem)
  · trivial

end Resolving

def MsgBuffer.msgs (buffer : MsgBuffer H) : List (Msg H) :=
  buffer.reqMsgs.map .request ++ buffer.prePrepareMsgs.map .prePrepare ++
    buffer.prepareMsgs.map .vote ++ buffer.commitMsgs.map .vote

theorem MsgBuffer.vote_mem_msgs {buffer : MsgBuffer H} {msg : VoteMsg H} :
    .vote msg ∈ buffer.msgs ↔ msg ∈ buffer.prepareMsgs ∨ msg ∈ buffer.commitMsgs := by
  simp [MsgBuffer.msgs]

namespace Node

def pipeline (node : Node H) : List (Resolving H) :=
  node.resolving :: node.delivering.map receive

def msgs (node : Node H) : List (Msg H) :=
  node.msgBuffer.msgs ++ node.pipeline.flatMap Resolving.msgs

structure Typed (node : Node H) : Prop where
  prepareBuffer : ∀ m ∈ node.msgBuffer.prepareMsgs, m.msgType = .prepareMsg
  commitBuffer : ∀ m ∈ node.msgBuffer.commitMsgs, m.msgType = .commitMsg
  pipeline : ∀ batch ∈ node.pipeline, batch.Typed

theorem typed_newNode (nodeID : String) : Typed (newNode nodeID : Node H) := by
  refine ⟨?_, ?_, ?_⟩ <;> simp [newNode, pipeline, Resolving.Typed]

theorem msgs_newNode (nodeID : String) : (newNode nodeID : Node H).msgs = [] := rfl

theorem mem_msgs {node : Node H} {m : Msg H} : m ∈ node.msgs ↔
    m ∈ node.msgBuffer.msgs ∨ m ∈ node.resolving.msgs ∨
      ∃ batch ∈ node.delivering, m ∈ (receive batch).msgs := by
  simp [msgs, pipeline]

/-- A message that is known: not a vote of neither type. -/
def Known : Msg H → Prop
  | .vote msg => msg.msgType = .prepareMsg ∨ msg.msgType = .commitMsg
  | _ => True

theorem receive_typed {msgs : List (VoteMsg H)} {msgType : MsgType}
    (hknown : msgType = .prepareMsg ∨ msgType = .commitMsg)
    (htyped : ∀ m ∈ msgs, m.msgType = msgType) :
    (receive (.votes msgs)).Typed ∧ (receive (.votes msgs)).msgs = msgs.map .vote := by
  cases msgs with
  | nil => exact ⟨trivial, rfl⟩
  | cons msg msgs =>
      have htype := htyped msg List.mem_cons_self
      rcases hknown with rfl | rfl
      · simp only [receive, htype]
        exact ⟨htyped, rfl⟩
      · simp only [receive, htype]
        exact ⟨htyped, rfl⟩

section Dispatcher

variable {node : Node H}

/-- A batch that takes the place of a part of the buffers. -/
theorem deliver_typed (h : Typed node) {buffer : MsgBuffer H}
    (hprepare : ∀ m ∈ buffer.prepareMsgs, m.msgType = .prepareMsg)
    (hcommit : ∀ m ∈ buffer.commitMsgs, m.msgType = .commitMsg)
    {batches : List (Delivery H)} (hbatches : ∀ batch ∈ batches, (receive batch).Typed) :
    Typed { node with msgBuffer := buffer, delivering := batches } := by
  refine ⟨hprepare, hcommit, ?_⟩
  intro batch hmem
  rcases List.mem_cons.mp hmem with rfl | hmem
  · exact h.pipeline _ List.mem_cons_self
  · obtain ⟨delivery, hdelivery, rfl⟩ := List.mem_map.mp hmem
    exact hbatches delivery hdelivery

theorem routeMsg_typed (h : Typed node) (hidle : node.delivering = []) {msg : Msg H}
    (hknown : Known msg) :
    Typed (node.routeMsg msg) ∧
      ∀ m, m ∈ (node.routeMsg msg).msgs ↔ m ∈ node.msgs ∨ m = msg := by
  simp only [mem_msgs, hidle]
  unfold Node.routeMsg
  cases msg with
  | request msg =>
      dsimp only
      split
      · refine ⟨?_, ?_⟩
        · refine deliver_typed h ?_ ?_ ?_
          · exact h.prepareBuffer
          · exact h.commitBuffer
          · simp [receive, Resolving.Typed]
        intro m
        simp only [MsgBuffer.msgs, receive, Resolving.msgs, List.mem_append, List.mem_map,
          List.mem_singleton]
        grind
      · refine ⟨⟨h.prepareBuffer, h.commitBuffer, h.pipeline⟩, ?_⟩
        intro m
        simp only [MsgBuffer.msgs, List.mem_append, List.mem_map, List.mem_singleton]
        grind
  | prePrepare msg =>
      dsimp only
      split
      · refine ⟨?_, ?_⟩
        · refine deliver_typed h ?_ ?_ ?_
          · exact h.prepareBuffer
          · exact h.commitBuffer
          · simp [receive, Resolving.Typed]
        intro m
        simp only [MsgBuffer.msgs, receive, Resolving.msgs, List.mem_append, List.mem_map,
          List.mem_singleton]
        grind
      · refine ⟨⟨h.prepareBuffer, h.commitBuffer, h.pipeline⟩, ?_⟩
        intro m
        simp only [MsgBuffer.msgs, List.mem_append, List.mem_map, List.mem_singleton]
        grind
  | vote msg =>
      rcases hknown with htype | htype
      · have htyped := typed_append h.prepareBuffer htype
        obtain ⟨hbatch, hmsgs⟩ := receive_typed (.inl rfl) htyped
        simp only [htype]
        split
        · refine ⟨⟨htyped, h.commitBuffer, h.pipeline⟩, ?_⟩
          intro m
          simp only [MsgBuffer.msgs, List.mem_append, List.mem_map, List.mem_singleton]
          grind
        · refine ⟨?_, ?_⟩
          · refine deliver_typed h ?_ ?_ ?_
            · simp
            · exact h.commitBuffer
            · simpa using hbatch
          intro m
          simp only [MsgBuffer.msgs, List.mem_append, List.mem_map, List.mem_singleton,
            exists_eq_left, hmsgs]
          grind
      · have htyped := typed_append h.commitBuffer htype
        obtain ⟨hbatch, hmsgs⟩ := receive_typed (.inr rfl) htyped
        simp only [htype]
        split
        · refine ⟨⟨h.prepareBuffer, htyped, h.pipeline⟩, ?_⟩
          intro m
          simp only [MsgBuffer.msgs, List.mem_append, List.mem_map, List.mem_singleton]
          grind
        · refine ⟨?_, ?_⟩
          · refine deliver_typed h ?_ ?_ ?_
            · exact h.prepareBuffer
            · simp
            · simpa using hbatch
          intro m
          simp only [MsgBuffer.msgs, List.mem_append, List.mem_map, List.mem_singleton,
            exists_eq_left, hmsgs]
          grind

theorem routeMsgWhenAlarmed_typed (h : Typed node) (hidle : node.delivering = []) :
    Typed node.routeMsgWhenAlarmed ∧
      ∀ m, m ∈ node.routeMsgWhenAlarmed.msgs ↔ m ∈ node.msgs := by
  simp only [mem_msgs, hidle]
  unfold Node.routeMsgWhenAlarmed
  split
  · refine ⟨?_, ?_⟩
    · refine deliver_typed h ?_ ?_ ?_
      · exact h.prepareBuffer
      · exact h.commitBuffer
      · intro batch hmem
        rcases List.mem_append.mp hmem with hmem | hmem
        · split at hmem <;> simp at hmem
          rw [hmem]
          trivial
        · split at hmem <;> simp at hmem
          rw [hmem]
          trivial
    · intro m
      simp only [MsgBuffer.msgs, List.mem_append, List.mem_map]
      constructor
      · rintro (hbuffer | hresolving | ⟨batch, hbatch | hbatch, hmem⟩)
        · exact .inl hbuffer
        · exact .inr (.inl hresolving)
        · split at hbatch <;> simp at hbatch
          subst hbatch
          simp only [receive, Resolving.msgs, List.mem_map] at hmem
          grind
        · split at hbatch <;> simp at hbatch
          subst hbatch
          simp only [receive, Resolving.msgs, List.mem_map] at hmem
          grind
      · grind
  · split
    · obtain ⟨hbatch, hmsgs⟩ := receive_typed (.inl rfl) h.prepareBuffer
      refine ⟨?_, ?_⟩
      · refine deliver_typed h ?_ ?_ ?_
        · exact h.prepareBuffer
        · exact h.commitBuffer
        · simpa using hbatch
      · intro m
        simp only [MsgBuffer.msgs, List.mem_append, List.mem_map, List.mem_singleton,
          exists_eq_left, hmsgs]
        grind
    · exact ⟨h, by simp [hidle]⟩
  · split
    · obtain ⟨hbatch, hmsgs⟩ := receive_typed (.inr rfl) h.commitBuffer
      refine ⟨?_, ?_⟩
      · refine deliver_typed h ?_ ?_ ?_
        · exact h.prepareBuffer
        · exact h.commitBuffer
        · simpa using hbatch
      · intro m
        simp only [MsgBuffer.msgs, List.mem_append, List.mem_map, List.mem_singleton,
          exists_eq_left, hmsgs]
        grind
    · exact ⟨h, by simp [hidle]⟩
  · exact ⟨h, by simp [hidle]⟩

theorem delivered_typed (h : Typed node) {batch : Delivery H} {batches : List (Delivery H)}
    (hdelivering : node.delivering = batch :: batches) (hidle : node.resolving = .idle) :
    Typed { node with delivering := batches, resolving := receive batch } ∧
      ∀ m, m ∈ { node with delivering := batches, resolving := receive batch }.msgs ↔
        m ∈ node.msgs := by
  refine ⟨⟨h.prepareBuffer, h.commitBuffer, ?_⟩, ?_⟩
  · intro next hmem
    refine h.pipeline next (List.mem_cons_of_mem _ ?_)
    rwa [hdelivering]
  · intro m
    simp [mem_msgs, hdelivering, hidle, Resolving.msgs]

end Dispatcher

end Node

namespace Resolving

/-- The message that the resolver looks at next. -/
def head : Resolving H → Option (Msg H)
  | .requests (msg :: _) => some (.request msg)
  | .prePrepares (msg :: _) => some (.prePrepare msg)
  | .prepares (msg :: _) => some (.vote msg)
  | .commits (msg :: _) => some (.vote msg)
  | _ => none

theorem mem_msgs_iff (batch : Resolving H) {m : Msg H} :
    m ∈ batch.msgs ↔ batch.head = some m ∨ m ∈ batch.next.msgs := by
  cases batch with
  | idle => simp [msgs, head, next]
  | requests msgs | prePrepares msgs | prepares msgs | commits msgs =>
      cases msgs <;> simp [Resolving.msgs, head, next, eq_comm]

end Resolving

namespace Node

/-- A look at the next message takes it out of the pipeline, and changes no other. -/
theorem resolved_typed {node : Node H} (h : Typed node) {state : Option (State H)}
    {committedMsgs : List RequestMsg} {crashed : Bool} {node' : Node H}
    (hnode : node' = ⟨node.nodeID, node.nodeTable, node.view, state, committedMsgs,
      node.msgBuffer, node.delivering, node.resolving.next, crashed⟩) :
    Typed node' ∧ ∀ m, m ∈ node.msgs ↔ node.resolving.head = some m ∨ m ∈ node'.msgs := by
  subst hnode
  refine ⟨⟨h.prepareBuffer, h.commitBuffer, ?_⟩, ?_⟩
  · intro batch hmem
    rcases List.mem_cons.mp hmem with rfl | hmem
    · exact (h.pipeline _ List.mem_cons_self).next
    · exact h.pipeline batch (List.mem_cons_of_mem _ hmem)
  · intro m
    simp only [mem_msgs, Resolving.mem_msgs_iff node.resolving]
    grind

end Node

end BlockchainTutorial.Pbft
