import BlockchainTutorial.Bitcoin.Encoding
import BlockchainTutorial.Bitcoin.FullNode
import BlockchainTutorial.Bitcoin.InitialSync

namespace BlockchainTutorial.Bitcoin

/-! The exchange of blocks, in bytes and in messages. -/

/-- The request that has the message in it. -/
def Packet.request (codecs : Codecs) (packet : Packet) : Request :=
  match packet.message with
  | .version bestHeight => .version ⟨nodeVersion, bestHeight, packet.addrFrom⟩
  | .getblocks => .getblocks ⟨packet.addrFrom⟩
  | .inv items => .inv ⟨packet.addrFrom, "block", items⟩
  | .getdata id => .getdata ⟨packet.addrFrom, "block", id⟩
  | .block block => .block ⟨packet.addrFrom, codecs.storedBlock.encode block⟩

def Packet.wire (codecs : Codecs) (packet : Packet) : Outgoing :=
  (packet.addr, (packet.request codecs).header ++ (packet.request codecs).gobEncode codecs)

def FullNode.withPeer (node : FullNode) (peer : Peer) : FullNode :=
  { node with toPeer := peer }

/-- What a handler of messages has done, in bytes. -/
def wired (codecs : Codecs) (node : FullNode) (done : Peer × List Packet) :
    FullNode × List Outgoing :=
  (node.withPeer done.1, done.2.map (Packet.wire codecs))

def Handling.outcome (handling : Handling) : FullNode × List Outgoing :=
  (handling.node, handling.sent)

def Handled.ofOutcome : Option (FullNode × List Outgoing) → Handled
  | some outcome => .returned outcome.1 outcome.2
  | none => .panicked []

theorem Handled.of_eq (result : Option Handling) :
    Handled.of result = Handled.ofOutcome (result.map Handling.outcome) := by
  cases result <;> rfl

/-- What follows the first step of `handleBlock`. -/
def Peer.fetchNext (decode : Bytes → Option Block) (fuel : Nat) (available : Bool)
    (peer : Peer) (addrFrom : Address) : List Bytes → Option (Peer × List Packet)
  | blockHash :: rest =>
      let done := peer.sendData available addrFrom (.getdata blockHash)
      some ({ done.1 with blocksInTransit := rest }, done.2)
  | [] =>
      (peer.store.reindex decode fuel).map fun chainstate => ({ peer with chainstate }, [])

theorem Peer.handleBlock_eq (decode : Bytes → Option Block) (fuel : Nat) (available : Bool)
    (peer : Peer) (addrFrom : Address) (block : Block) :
    peer.handleBlock decode fuel available addrFrom block =
      (peer.store.addBlock decode block).bind fun store =>
        { peer with store }.fetchNext decode fuel available addrFrom peer.blocksInTransit := by
  unfold handleBlock
  cases peer.store.addBlock decode block with
  | none => rfl
  | some store =>
      simp only [Option.bind_eq_bind, Option.bind_some]
      cases peer.blocksInTransit with
      | nil => rfl
      | cons blockHash rest => rfl

/-! The handlers of blocks. -/

section Handlers

variable {codecs : Codecs} {crypto : Crypto} {fuel : Nat} {dial : Nat → Bool}
  (node : FullNode) (addrFrom : Address)

theorem send_wired (addr : Address) (message : Message) :
    (Handling.send codecs dial ⟨node, [], 0⟩ addr
        (Packet.request codecs ⟨node.nodeAddress, addr, message⟩)).map Handling.outcome =
      some (wired codecs node (node.toPeer.sendData (dial 0) addr message)) := by
  rw [Handling.send, Request.bytes_eq, Option.map_some, Option.map_some]
  unfold Handling.sendData Peer.sendData
  split
  · rfl
  · rfl

/-- A message is sent, and the state of the peer is changed. -/
theorem send_then_wired (addr : Address) (message : Message) (change : Peer → Peer)
    (after : Handling → Handling)
    (hafter : ∀ handling, (after handling).outcome =
      (handling.node.withPeer (change handling.node.toPeer), handling.sent)) :
    ((Handling.send codecs dial ⟨node, [], 0⟩ addr
        (Packet.request codecs ⟨node.nodeAddress, addr, message⟩)).bind
          fun handling => some (after handling)).map Handling.outcome =
      some (wired codecs node (change (node.toPeer.sendData (dial 0) addr message).1,
        (node.toPeer.sendData (dial 0) addr message).2)) := by
  have hsend := @send_wired codecs dial node addr message
  cases hresult : Handling.send codecs dial ⟨node, [], 0⟩ addr
      (Packet.request codecs ⟨node.nodeAddress, addr, message⟩) with
  | none =>
      rw [hresult] at hsend
      cases hsend
  | some handling =>
      rw [hresult, Option.map_some, Option.some.injEq, Handling.outcome] at hsend
      obtain ⟨hnode, hsent⟩ := Prod.mk.inj hsend
      rw [Option.bind_some, Option.map_some, hafter, hnode, hsent]
      rfl

theorem meet_outcome (handling : Handling) : (handling.meet addrFrom).outcome =
    (handling.node.withPeer (handling.node.toPeer.meet addrFrom), handling.sent) := by
  unfold Handling.meet Peer.meet
  split
  · rfl
  · rfl

theorem handleVersion_wired (bestHeight : Int) :
    (Handling.handleVersion codecs dial ⟨node, [], 0⟩
        ⟨nodeVersion, bestHeight, addrFrom⟩).map Handling.outcome =
      (node.toPeer.handleVersion codecs.storedBlock.decode (dial 0) addrFrom bestHeight).map
        (wired codecs node) := by
  unfold Handling.handleVersion Peer.handleVersion Handling.compareHeights
  cases hbest : node.store.getBestHeight codecs.storedBlock.decode with
  | none => rfl
  | some myBestHeight =>
      simp only [Option.bind_eq_bind, Option.bind_some]
      rcases Int.lt_trichotomy myBestHeight bestHeight with hlt | rfl | hgt
      · simp only [if_pos hlt]
        exact send_then_wired node addrFrom .getblocks (Peer.meet · addrFrom)
          (Handling.meet · addrFrom) (meet_outcome addrFrom)
      · simp only [gt_iff_lt, Int.lt_irrefl, if_false]
        exact congrArg some (meet_outcome addrFrom ⟨node, [], 0⟩)
      · simp only [gt_iff_lt, if_neg (Int.lt_asymm hgt), if_pos hgt]
        simp only [Handling.sendVersion, Peer.sendVersion, hbest, Option.bind_eq_bind,
          Option.bind_some, Option.map_some]
        exact send_then_wired node addrFrom (.version myBestHeight) (Peer.meet · addrFrom)
          (Handling.meet · addrFrom) (meet_outcome addrFrom)

theorem fetchNext_wired (blocksInTransit : List Bytes) :
    (Handling.fetchNext codecs fuel dial ⟨node, [], 0⟩ addrFrom blocksInTransit).map
        Handling.outcome =
      (node.toPeer.fetchNext codecs.storedBlock.decode fuel (dial 0) addrFrom
        blocksInTransit).map (wired codecs node) := by
  cases blocksInTransit with
  | nil =>
      unfold Handling.fetchNext Peer.fetchNext
      dsimp only
      cases node.store.reindex codecs.storedBlock.decode fuel with
      | none => rfl
      | some chainstate => rfl
  | cons blockHash rest =>
      exact send_then_wired node addrFrom (.getdata blockHash)
        (fun peer => { peer with blocksInTransit := rest })
        (fun handling =>
          { handling with node := { handling.node with blocksInTransit := rest } })
        fun _ => rfl

theorem handleBlock_wired (block : Block) :
    (Handling.handleBlock codecs fuel dial ⟨node, [], 0⟩
        ⟨addrFrom, codecs.storedBlock.encode block⟩).map Handling.outcome =
      (node.toPeer.handleBlock codecs.storedBlock.decode fuel (dial 0) addrFrom block).map
        (wired codecs node) := by
  rw [Peer.handleBlock_eq, Handling.handleBlock, codecs.storedBlock.decode_encode]
  simp only [Option.bind_eq_bind, Option.bind_some]
  cases node.store.addBlock codecs.storedBlock.decode block with
  | none => rfl
  | some store =>
      exact fetchNext_wired { node with store } addrFrom node.blocksInTransit

theorem handleGetBlocks_wired :
    (Handling.handleGetBlocks codecs fuel dial ⟨node, [], 0⟩ ⟨addrFrom⟩).map
        Handling.outcome =
      (node.toPeer.handleGetBlocks codecs.storedBlock.decode fuel (dial 0) addrFrom).map
        (wired codecs node) := by
  unfold Handling.handleGetBlocks Peer.handleGetBlocks
  cases node.store.getBlockHashes codecs.storedBlock.decode fuel with
  | none => rfl
  | some blocks => exact send_wired node addrFrom (.inv blocks)

theorem handleInv_wired (items : List Bytes) :
    (Handling.handleInv codecs dial ⟨node, [], 0⟩ ⟨addrFrom, "block", items⟩).map
        Handling.outcome =
      (node.toPeer.handleInv (dial 0) addrFrom items).map (wired codecs node) := by
  unfold Handling.handleInv
  rw [if_pos rfl]
  cases items with
  | nil => rfl
  | cons blockHash items =>
      let blocksInTransit := (blockHash :: items).filter (· ≠ blockHash)
      exact send_then_wired node addrFrom (.getdata blockHash)
        (fun peer => { peer with blocksInTransit })
        (fun handling => { handling with node := { handling.node with blocksInTransit } })
        fun _ => rfl

theorem handleGetData_wired (id : Bytes) :
    (Handling.handleGetData codecs dial ⟨node, [], 0⟩ ⟨addrFrom, "block", id⟩).map
        Handling.outcome =
      (node.toPeer.handleGetData codecs.storedBlock.decode (dial 0) addrFrom id).map
        (wired codecs node) := by
  unfold Handling.handleGetData Peer.handleGetData
  rw [if_pos rfl]
  cases node.store.getBlock codecs.storedBlock.decode id with
  | none => rfl
  | some found =>
      cases found with
      | none => rfl
      | some block => exact send_wired node addrFrom (.block block)

/-- A message in bytes is handled as the message is. -/
theorem handleConnection_wired (turns : List MiningTurn) (packet : Packet) :
    node.handleConnection codecs crypto fuel dial turns (packet.wire codecs).2 =
      some (.ofOutcome ((node.toPeer.handleConnection codecs.storedBlock.decode fuel (dial 0)
        packet.addrFrom packet.message).map (wired codecs node))) := by
  have hread : Request.read codecs (packet.wire codecs).2 =
      some (some (packet.request codecs)) := Request.read_bytes (Request.bytes_eq codecs _)
  unfold FullNode.handleConnection
  rw [hread]
  obtain ⟨addrFrom, addr, message⟩ := packet
  cases message with
  | version bestHeight =>
      exact congrArg some ((Handled.of_eq _).trans
        (congrArg _ (handleVersion_wired node addrFrom bestHeight)))
  | getblocks =>
      exact congrArg some ((Handled.of_eq _).trans
        (congrArg _ (handleGetBlocks_wired node addrFrom)))
  | inv items =>
      exact congrArg some ((Handled.of_eq _).trans
        (congrArg _ (handleInv_wired node addrFrom items)))
  | getdata id =>
      exact congrArg some ((Handled.of_eq _).trans
        (congrArg _ (handleGetData_wired node addrFrom id)))
  | block block =>
      exact congrArg some ((Handled.of_eq _).trans
        (congrArg _ (handleBlock_wired node addrFrom block)))

end Handlers

/-! Two servers that exchange bytes. -/

structure WireExchange where
  a : FullNode
  b : FullNode
  inFlight : List Outgoing

namespace WireExchange

variable (codecs : Codecs) (crypto : Crypto) (fuel : Nat)

def afterA (exchange : WireExchange) (rest : List Outgoing) : Option Handled → Option WireExchange
  | some (.returned a sent) => some { exchange with a, inFlight := rest ++ sent }
  | _ => none

def afterB (exchange : WireExchange) (rest : List Outgoing) : Option Handled → Option WireExchange
  | some (.returned b sent) => some { exchange with b, inFlight := rest ++ sent }
  | _ => none

/-- The first request is handled by the server that it was sent to. -/
def handleNext (exchange : WireExchange) : Option WireExchange :=
  match exchange.inFlight with
  | [] => some exchange
  | request :: rest =>
      if request.1 = exchange.a.nodeAddress then
        exchange.afterA rest
          (exchange.a.handleConnection codecs crypto fuel (fun _ => true) [] request.2)
      else if request.1 = exchange.b.nodeAddress then
        exchange.afterB rest
          (exchange.b.handleConnection codecs crypto fuel (fun _ => true) [] request.2)
      else some { exchange with inFlight := rest }

def handle : Nat → WireExchange → Option WireExchange
  | 0, exchange => some exchange
  | n + 1, exchange => (handleNext codecs crypto fuel exchange).bind (handle n)

/-- `b` sends its version to `a`, and `n` requests are handled. -/
def sync (n : Nat) (a b : FullNode) : Option WireExchange :=
  (Handling.sendVersion codecs (fun _ => true) ⟨b, [], 0⟩ a.nodeAddress).bind fun handling =>
    handle codecs crypto fuel n ⟨a, handling.node, handling.sent⟩

variable {codecs crypto fuel}

/-- The exchange of the messages, in bytes. -/
def ofMessages (codecs : Codecs) (a b : FullNode) (exchange : Exchange) : WireExchange :=
  ⟨a.withPeer exchange.a, b.withPeer exchange.b, exchange.inFlight.map (Packet.wire codecs)⟩

theorem afterA_wired (a b : FullNode) (exchange : Exchange) (rest : List Packet)
    (done : Option (Peer × List Packet)) :
    (ofMessages codecs a b exchange).afterA (rest.map (Packet.wire codecs))
        (some (.ofOutcome (done.map (wired codecs (a.withPeer exchange.a))))) =
      (done.map fun done => { exchange with a := done.1, inFlight := rest ++ done.2 }).map
        (ofMessages codecs a b) := by
  cases done with
  | none => rfl
  | some done =>
      simp only [Option.map_some, ofMessages, afterA, Handled.ofOutcome, wired,
        List.map_append]
      rfl

theorem afterB_wired (a b : FullNode) (exchange : Exchange) (rest : List Packet)
    (done : Option (Peer × List Packet)) :
    (ofMessages codecs a b exchange).afterB (rest.map (Packet.wire codecs))
        (some (.ofOutcome (done.map (wired codecs (b.withPeer exchange.b))))) =
      (done.map fun done => { exchange with b := done.1, inFlight := rest ++ done.2 }).map
        (ofMessages codecs a b) := by
  cases done with
  | none => rfl
  | some done =>
      simp only [Option.map_some, ofMessages, afterB, Handled.ofOutcome, wired,
        List.map_append]
      rfl

theorem handleNext_ofMessages (a b : FullNode) (exchange : Exchange) :
    handleNext codecs crypto fuel (ofMessages codecs a b exchange) =
      (Exchange.handleNext codecs.storedBlock.decode fuel exchange).map
        (ofMessages codecs a b) := by
  obtain ⟨peerA, peerB, inFlight⟩ := exchange
  cases inFlight with
  | nil => rfl
  | cons packet rest =>
      unfold handleNext Exchange.handleNext
      by_cases ha : packet.addr = peerA.nodeAddress
      · have ha' : (packet.wire codecs).1 = (a.withPeer peerA).nodeAddress := ha
        simp only [ofMessages, List.map_cons, if_pos ha, if_pos ha']
        rw [handleConnection_wired]
        exact afterA_wired a b ⟨peerA, peerB, packet :: rest⟩ rest _
      · have ha' : (packet.wire codecs).1 ≠ (a.withPeer peerA).nodeAddress := ha
        by_cases hb : packet.addr = peerB.nodeAddress
        · have hb' : (packet.wire codecs).1 = (b.withPeer peerB).nodeAddress := hb
          simp only [ofMessages, List.map_cons, if_neg ha, if_neg ha', if_pos hb, if_pos hb']
          rw [handleConnection_wired]
          exact afterB_wired a b ⟨peerA, peerB, packet :: rest⟩ rest _
        · have hb' : (packet.wire codecs).1 ≠ (b.withPeer peerB).nodeAddress := hb
          simp only [ofMessages, List.map_cons, if_neg ha, if_neg ha', if_neg hb, if_neg hb']
          rfl

theorem handle_ofMessages (a b : FullNode) (n : Nat) (exchange : Exchange) :
    handle codecs crypto fuel n (ofMessages codecs a b exchange) =
      (Exchange.handle codecs.storedBlock.decode fuel n exchange).map
        (ofMessages codecs a b) := by
  induction n generalizing exchange with
  | zero => rfl
  | succ n ih =>
      rw [handle, Exchange.handle, handleNext_ofMessages]
      cases Exchange.handleNext codecs.storedBlock.decode fuel exchange with
      | none => rfl
      | some next => exact ih next

end WireExchange

/-- The initial exchange of two servers in bytes is that of their messages, after any number
of requests. -/
theorem wire_sync (codecs : Codecs) (crypto : Crypto) (fuel n : Nat) (a b : FullNode) :
    WireExchange.sync codecs crypto fuel n a b =
      (Exchange.sync codecs.storedBlock.decode fuel n a.toPeer b.toPeer).map
        (WireExchange.ofMessages codecs a b) := by
  unfold WireExchange.sync Exchange.sync Handling.sendVersion Peer.sendVersion
  cases hbest : b.store.getBestHeight codecs.storedBlock.decode with
  | none => rfl
  | some bestHeight =>
      simp only [Option.bind_eq_bind, Option.bind_some, Option.map_some, Handling.send]
      rw [Request.bytes_eq]
      exact WireExchange.handle_ofMessages a b n
        ⟨a.toPeer, b.toPeer, [⟨b.nodeAddress, a.nodeAddress, .version bestHeight⟩]⟩

/-! The first server is one block ahead of the second one. -/

def FullNode.ofPeer (peer : Peer) : FullNode :=
  { peer with miningAddress := none, mempool := ∅ }

/-- Both versions, `getblocks` and `inv` go over the wire, and `getdata` and `block` twice. -/
theorem wire_sync_ahead : ∃ exchange,
    WireExchange.sync encodings sumCrypto 2 8 (.ofPeer (ahead newStore [9]))
        (.ofPeer (behind newStore)) = some exchange ∧
      exchange.inFlight = [] ∧ exchange.b.store.tip = [1] ∧
      (exchange.b.chainstate.get [9]).isSome := by
  have hmessages : (Exchange.sync encodings.storedBlock.decode 2 8 (ahead newStore [9])
      (behind newStore)).any (fun exchange => decide (exchange.inFlight.isEmpty ∧
        exchange.b.store.tip = [1] ∧ (exchange.b.chainstate.get [9]).isSome)) = true := by
    decide +kernel
  obtain ⟨exchange, hsync, hchecked⟩ := (Option.any_eq_true _ _).mp hmessages
  obtain ⟨hquiet, htip, hheld⟩ := of_decide_eq_true hchecked
  refine ⟨WireExchange.ofMessages encodings (.ofPeer (ahead newStore [9]))
    (.ofPeer (behind newStore)) exchange, ?_, ?_, htip, hheld⟩
  · rw [wire_sync]
    exact congrArg (Option.map _) hsync
  · exact List.map_eq_nil_iff.mpr (List.isEmpty_iff.mp hquiet)

end BlockchainTutorial.Bitcoin
