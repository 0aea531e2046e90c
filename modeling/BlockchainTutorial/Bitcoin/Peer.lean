import BlockchainTutorial.Bitcoin.Reindex

namespace BlockchainTutorial.Bitcoin

/-! `server.go`, as far as blocks are exchanged: the messages of type "tx" and the lists
of addresses are left out. A panic ends the server. -/

abbrev Address := String

inductive Message where
  | version (bestHeight : Int)
  | getblocks
  | inv (items : List Bytes)
  | getdata (id : Bytes)
  | block (block : Block)

/-- A message on its way; each one has the address of its sender in it. -/
structure Packet where
  addrFrom : Address
  addr : Address
  message : Message

/-- The variables of a server, and its database. -/
structure Peer where
  nodeAddress : Address
  knownNodes : List Address
  blocksInTransit : List Bytes
  store : BlockStore
  chainstate : Bucket

/-- What `GetBlock` returns, of which the inner `none` is the error. -/
def BlockStore.getBlock (decode : Bytes → Option Block) (store : BlockStore)
    (blockHash : Bytes) : Option (Option Block) :=
  if blockHash = lastKey then (decode store.last).map some
  else some (store.blocks.get blockHash)

namespace Peer

/-- A node that is not available is known no longer. -/
def sendData (available : Bool) (peer : Peer) (addr : Address) (message : Message) :
    Peer × List Packet :=
  if available then (peer, [⟨peer.nodeAddress, addr, message⟩])
  else ({ peer with knownNodes := peer.knownNodes.filter (· ≠ addr) }, [])

/-! `available` says whether the node that a handler answers takes the connection. -/

variable (decode : Bytes → Option Block) (fuel : Nat) (available : Bool) (peer : Peer)
  (addrFrom : Address)

def sendVersion (addr : Address) : Option (Peer × List Packet) :=
  (peer.store.getBestHeight decode).map fun bestHeight =>
    peer.sendData available addr (.version bestHeight)

def handleBlock (block : Block) : Option (Peer × List Packet) := do
  let store ← peer.store.addBlock decode block
  let peer := { peer with store }
  match peer.blocksInTransit with
  | blockHash :: rest =>
      let (peer, sent) := peer.sendData available addrFrom (.getdata blockHash)
      some ({ peer with blocksInTransit := rest }, sent)
  | [] => (store.reindex decode fuel).map fun chainstate => ({ peer with chainstate }, [])

def handleInv : List Bytes → Option (Peer × List Packet)
  | [] => none
  | blockHash :: items =>
      let (peer, sent) := peer.sendData available addrFrom (.getdata blockHash)
      let newInTransit := (blockHash :: items).filter (· ≠ blockHash)
      some ({ peer with blocksInTransit := newInTransit }, sent)

def handleGetBlocks : Option (Peer × List Packet) :=
  (peer.store.getBlockHashes decode fuel).map fun blocks =>
    peer.sendData available addrFrom (.inv blocks)

def handleGetData (id : Bytes) : Option (Peer × List Packet) :=
  (peer.store.getBlock decode id).map fun
    | none => (peer, [])
    | some block => peer.sendData available addrFrom (.block block)

/-- `nodeIsKnown`, and what follows in `handleVersion`. -/
def meet : Peer :=
  if addrFrom ∈ peer.knownNodes then peer
  else { peer with knownNodes := peer.knownNodes ++ [addrFrom] }

def handleVersion (foreignerBestHeight : Int) : Option (Peer × List Packet) := do
  let myBestHeight ← peer.store.getBestHeight decode
  let (peer, sent) ←
    if myBestHeight < foreignerBestHeight then
      some (peer.sendData available addrFrom .getblocks)
    else if myBestHeight > foreignerBestHeight then
      peer.sendVersion decode available addrFrom
    else some (peer, [])
  some (peer.meet addrFrom, sent)

def handleConnection : Message → Option (Peer × List Packet)
  | .version bestHeight => peer.handleVersion decode available addrFrom bestHeight
  | .getblocks => peer.handleGetBlocks decode fuel available addrFrom
  | .inv items => peer.handleInv available addrFrom items
  | .getdata id => peer.handleGetData decode available addrFrom id
  | .block block => peer.handleBlock decode fuel available addrFrom block

/-- `knownNodes` at the start of a server. -/
def startServer (nodeAddress : Address) (store : BlockStore) (chainstate : Bucket) : Peer :=
  ⟨nodeAddress, ["localhost:3000"], [], store, chainstate⟩

/-! What the handlers of blocks do that do not panic. -/

section Handled

variable {decode : Bytes → Option Block} {fuel : Nat} {available : Bool}
  {peer peer' : Peer} {addrFrom : Address} {sent : List Packet}

/-- The message, if it is sent. -/
def answer (available : Bool) (peer : Peer) (addr : Address) (message : Message) :
    List Packet :=
  if available then [⟨peer.nodeAddress, addr, message⟩] else []

theorem sendData_snd (available : Bool) (peer : Peer) (addr : Address) (message : Message) :
    (peer.sendData available addr message).2 = answer available peer addr message := by
  unfold sendData answer
  split <;> rfl

/-- Only the addresses may change when a message is sent. -/
theorem sendData_fst (available : Bool) (peer : Peer) (addr : Address) (message : Message) :
    ∃ knownNodes, (peer.sendData available addr message).1 = { peer with knownNodes } := by
  unfold sendData
  split
  · exact ⟨peer.knownNodes, rfl⟩
  · exact ⟨_, rfl⟩

@[simp] theorem sendData_true (peer : Peer) (addr : Address) (message : Message) :
    peer.sendData true addr message = (peer, [⟨peer.nodeAddress, addr, message⟩]) := rfl

@[simp] theorem meet_nodeAddress : (peer.meet addrFrom).nodeAddress = peer.nodeAddress := by
  unfold meet
  split <;> rfl

@[simp] theorem meet_store : (peer.meet addrFrom).store = peer.store := by
  unfold meet
  split <;> rfl

theorem handleInv_eq_some {items : List Bytes}
    (h : peer.handleInv available addrFrom items = some (peer', sent)) :
    ∃ blockHash rest knownNodes, items = blockHash :: rest ∧
      peer' = { peer with
        knownNodes, blocksInTransit := items.filter (· ≠ blockHash) } ∧
      sent = answer available peer addrFrom (.getdata blockHash) := by
  cases items with
  | nil => cases h
  | cons blockHash rest =>
      simp only [handleInv, Option.some.injEq, Prod.mk.injEq] at h
      obtain ⟨rfl, rfl⟩ := h
      obtain ⟨knownNodes, hknown⟩ := sendData_fst available peer addrFrom (.getdata blockHash)
      refine ⟨blockHash, rest, knownNodes, rfl, ?_, sendData_snd _ _ _ _⟩
      rw [hknown]

/-- The block is added; then the next block is asked for, or the index is rebuilt. -/
theorem handleBlock_eq_some {block : Block}
    (h : peer.handleBlock decode fuel available addrFrom block = some (peer', sent)) :
    ∃ store, peer.store.addBlock decode block = some store ∧
      ((∃ blockHash rest knownNodes, peer.blocksInTransit = blockHash :: rest ∧
          peer' = { peer with knownNodes, blocksInTransit := rest, store } ∧
          sent = answer available peer addrFrom (.getdata blockHash)) ∨
        (peer.blocksInTransit = [] ∧ ∃ chainstate,
          store.reindex decode fuel = some chainstate ∧
          peer' = { peer with store, chainstate } ∧ sent = [])) := by
  obtain ⟨store, hadd, h⟩ := Option.bind_eq_some_iff.mp h
  refine ⟨store, hadd, ?_⟩
  cases htransit : peer.blocksInTransit with
  | nil =>
      simp only [htransit] at h
      obtain ⟨chainstate, hreindex, heq⟩ := Option.map_eq_some_iff.mp h
      cases heq
      exact .inr ⟨rfl, chainstate, hreindex, rfl, rfl⟩
  | cons blockHash rest =>
      simp only [htransit, Option.some.injEq, Prod.mk.injEq] at h
      obtain ⟨rfl, rfl⟩ := h
      obtain ⟨knownNodes, hknown⟩ := sendData_fst available { peer with store } addrFrom
        (.getdata blockHash)
      refine .inl ⟨blockHash, rest, knownNodes, rfl, ?_, sendData_snd _ _ _ _⟩
      simp only [← htransit, hknown]

end Handled

end Peer

end BlockchainTutorial.Bitcoin
