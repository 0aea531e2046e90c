import BlockchainTutorial.Bitcoin.Wire

namespace BlockchainTutorial.Bitcoin

/-! `server.go` with its mempool, from the requests that come in to those that go out. The
handlers run one after the other, and the hex text of an ID stands for the ID. -/

/-- The node that is dialled, and what it is sent. -/
abbrev Outgoing := Address × Bytes

structure FullNode extends Peer where
  miningAddress : Option Bytes
  mempool : AList fun _ : Bytes => Transaction

/-- A handler at work. -/
structure Handling where
  node : FullNode
  sent : List Outgoing
  -- the connections that it has asked for
  dials : Nat

inductive Handled where
  | returned (node : FullNode) (sent : List Outgoing)
  | panicked (sent : List Outgoing)

def Handled.of : Option Handling → Handled
  | some handling => .returned handling.node handling.sent
  | none => .panicked []

/-- What a turn of the loop `MineTransactions` depends on: the order in which the map is read,
the clock, and the bytes of the coinbase. -/
structure MiningTurn where
  order : List Bytes
  timestamp : Int
  randData : Bytes

/-- The value of a map without the key. -/
def emptyTransaction : Transaction := ⟨[], [], []⟩

def nodeVersion : Int := 1

namespace Handling

-- `dial` tells which of the connections are taken
variable (codecs : Codecs) (crypto : Crypto) (fuel : Nat) (dial : Nat → Bool)
  (handling : Handling)

/-- A node that is not available is known no longer. -/
def sendData (addr : Address) (data : Bytes) : Handling :=
  if dial handling.dials then
    { handling with sent := handling.sent ++ [(addr, data)], dials := handling.dials + 1 }
  else
    let knownNodes := handling.node.knownNodes.filter (· ≠ addr)
    { handling with node := { handling.node with knownNodes }, dials := handling.dials + 1 }

def send (addr : Address) (request : Request) : Option Handling :=
  (request.bytes codecs).map (handling.sendData dial addr)

def sendBlock (addr : Address) (block : Block) : Option Handling :=
  handling.send codecs dial addr
    (.block ⟨handling.node.nodeAddress, codecs.storedBlock.encode block⟩)

def sendInv (address : Address) (kind : String) (items : List Bytes) : Option Handling :=
  handling.send codecs dial address (.inv ⟨handling.node.nodeAddress, kind, items⟩)

def sendGetBlocks (address : Address) : Option Handling :=
  handling.send codecs dial address (.getblocks ⟨handling.node.nodeAddress⟩)

def sendGetData (address : Address) (kind : String) (id : Bytes) : Option Handling :=
  handling.send codecs dial address (.getdata ⟨handling.node.nodeAddress, kind, id⟩)

def sendTx (addr : Address) (tnx : Transaction) : Option Handling :=
  handling.send codecs dial addr
    (.tx ⟨handling.node.nodeAddress, codecs.transaction.encode tnx⟩)

def sendVersion (addr : Address) : Option Handling := do
  let bestHeight ← handling.node.store.getBestHeight codecs.storedBlock.decode
  handling.send codecs dial addr (.version ⟨nodeVersion, bestHeight, handling.node.nodeAddress⟩)

/-- The nodes are those that were known when the loop began. -/
def requestBlocks : Option Handling :=
  handling.node.knownNodes.foldlM (fun handling node => handling.sendGetBlocks codecs dial node)
    handling

/-- The announcement to the nodes of a list but for some. -/
def announce (kind : String) (items : List Bytes) (skipped : List Address) : Option Handling :=
  (handling.node.knownNodes.filter (· ∉ skipped)).foldlM
    (fun handling node => handling.sendInv codecs dial node kind items) handling

def handleAddr (payload : Wire.Addr) : Option Handling :=
  let knownNodes := handling.node.knownNodes ++ payload.addrList
  { handling with node := { handling.node with knownNodes } }.requestBlocks codecs dial

/-- The next block in transit is asked for, or the index is rebuilt. -/
def fetchNext (addrFrom : Address) : List Bytes → Option Handling
  | blockHash :: rest => do
      let handling ← handling.sendGetData codecs dial addrFrom "block" blockHash
      some { handling with node := { handling.node with blocksInTransit := rest } }
  | [] => do
      let chainstate ← handling.node.store.reindex codecs.storedBlock.decode fuel
      some { handling with node := { handling.node with chainstate } }

def handleBlock (payload : Wire.Block) : Option Handling := do
  let block ← codecs.storedBlock.decode payload.block
  let store ← handling.node.store.addBlock codecs.storedBlock.decode block
  { handling with node := { handling.node with store } }.fetchNext codecs fuel dial
    payload.addrFrom handling.node.blocksInTransit

/-- The first item is read whether or not there is one. -/
def handleInvBlock (payload : Wire.Inv) : Option Handling :=
  match payload.items with
  | [] => none
  | blockHash :: _ => do
      let handling ← handling.sendGetData codecs dial payload.addrFrom "block" blockHash
      let blocksInTransit := payload.items.filter (· ≠ blockHash)
      some { handling with node := { handling.node with blocksInTransit } }

def handleInvTx (payload : Wire.Inv) : Option Handling :=
  match payload.items with
  | [] => none
  | txID :: _ =>
      if ((handling.node.mempool.lookup txID).getD emptyTransaction).id = [] then
        handling.sendGetData codecs dial payload.addrFrom "tx" txID
      else some handling

def handleInv (payload : Wire.Inv) : Option Handling :=
  if payload.type = "block" then handling.handleInvBlock codecs dial payload
  else if payload.type = "tx" then handling.handleInvTx codecs dial payload
  else some handling

def handleGetBlocks (payload : Wire.GetBlocks) : Option Handling := do
  let blocks ← handling.node.store.getBlockHashes codecs.storedBlock.decode fuel
  handling.sendInv codecs dial payload.addrFrom "block" blocks

/-- A transaction that is not in the mempool is sent as an empty one. -/
def handleGetData (payload : Wire.GetData) : Option Handling :=
  if payload.type = "block" then do
    match ← handling.node.store.getBlock codecs.storedBlock.decode payload.id with
    | none => some handling
    | some block => handling.sendBlock codecs dial payload.addrFrom block
  else if payload.type = "tx" then
    handling.sendTx codecs dial payload.addrFrom
      ((handling.node.mempool.lookup payload.id).getD emptyTransaction)
  else some handling

def compareHeights (payload : Wire.Verzion) (myBestHeight : Int) : Option Handling :=
  if myBestHeight < payload.bestHeight then
    handling.sendGetBlocks codecs dial payload.addrFrom
  else if myBestHeight > payload.bestHeight then
    handling.sendVersion codecs dial payload.addrFrom
  else some handling

/-- `nodeIsKnown`, and what follows in `handleVersion`. -/
def meet (addrFrom : Address) : Handling :=
  if addrFrom ∈ handling.node.knownNodes then handling
  else
    let knownNodes := handling.node.knownNodes ++ [addrFrom]
    { handling with node := { handling.node with knownNodes } }

def handleVersion (payload : Wire.Verzion) : Option Handling := do
  let myBestHeight ← handling.node.store.getBestHeight codecs.storedBlock.decode
  let handling ← handling.compareHeights codecs dial payload myBestHeight
  some (handling.meet payload.addrFrom)

/-- The transactions of the mempool that are verified, in the order of the loop. -/
def verified (store : BlockStore) : List Transaction → Option (List Transaction)
  | [] => some []
  | tx :: txs => do
      let valid ← store.verifyTransaction codecs.storedBlock.decode crypto fuel tx
      let rest ← verified store txs
      some (if valid then tx :: rest else rest)

def mined (store : BlockStore) (chainstate : Bucket) (txs : List Transaction) : Handling :=
  let mempool := txs.foldl (fun mempool tx => mempool.erase tx.id) handling.node.mempool
  { handling with node := { handling.node with store, chainstate, mempool } }

/-- What a turn does when it has valid transactions. -/
def mine (miningAddress : Bytes) (turn : MiningTurn) (txs : List Transaction) :
    Option Handling := do
  let txs := txs ++ [newCoinbaseTX crypto miningAddress "" turn.randData]
  let store ← handling.node.store.mineBlock codecs.storedBlock.decode crypto fuel turn.timestamp
    txs
  let chainstate ← store.reindex codecs.storedBlock.decode fuel
  (handling.mined store chainstate txs).announce codecs dial "block" [store.last]
    [handling.node.nodeAddress]

/-- The loop `MineTransactions`. A list of turns that does not fit gives `none`. -/
def mineTransactions (miningAddress : Bytes) :
    List MiningTurn → Handling → Option Handled
  | [], _ => none
  | turn :: turns, handling =>
      if ¬ turn.order.Perm handling.node.mempool.keys then none
      else
        match verified codecs crypto fuel handling.node.store
            (turn.order.filterMap handling.node.mempool.lookup) with
        | none => some (.panicked handling.sent)
        | some [] => some (.returned handling.node handling.sent)
        | some (tx :: txs) =>
            match handling.mine codecs crypto fuel dial miningAddress turn (tx :: txs) with
            | none => some (.panicked handling.sent)
            | some handling =>
                if 0 < handling.node.mempool.keys.length then
                  mineTransactions miningAddress turns handling
                else some (.returned handling.node handling.sent)

def receiveTx (tx : Transaction) : Handling :=
  let mempool := handling.node.mempool.insert tx.id tx
  { handling with node := { handling.node with mempool } }

/-- `knownNodes[0]` is read whether or not there is one. -/
def handleTx (turns : List MiningTurn) (payload : Wire.Tx) : Option Handled :=
  match codecs.transaction.decode payload.transaction, handling.node.knownNodes with
  | none, _ => some (.panicked handling.sent)
  | some _, [] => some (.panicked handling.sent)
  | some tx, central :: _ =>
      let handling := handling.receiveTx tx
      if handling.node.nodeAddress = central then
        some (.of (handling.announce codecs dial "tx" [tx.id]
          [handling.node.nodeAddress, payload.addFrom]))
      else
        match handling.node.miningAddress with
        | none => some (.returned handling.node handling.sent)
        | some miningAddress =>
            if 2 ≤ handling.node.mempool.keys.length then
              mineTransactions codecs crypto fuel dial miningAddress turns handling
            else some (.returned handling.node handling.sent)

def handle (turns : List MiningTurn) : Request → Option Handled
  | .addr payload => some (.of (handling.handleAddr codecs dial payload))
  | .block payload => some (.of (handling.handleBlock codecs fuel dial payload))
  | .inv payload => some (.of (handling.handleInv codecs dial payload))
  | .getblocks payload => some (.of (handling.handleGetBlocks codecs fuel dial payload))
  | .getdata payload => some (.of (handling.handleGetData codecs dial payload))
  | .tx payload => handling.handleTx codecs crypto fuel dial turns payload
  | .version payload => some (.of (handling.handleVersion codecs dial payload))

end Handling

namespace FullNode

variable (codecs : Codecs) (crypto : Crypto) (fuel : Nat) (dial : Nat → Bool)

def handleConnection (node : FullNode) (turns : List MiningTurn) (request : Bytes) :
    Option Handled :=
  match Request.read codecs request with
  | none => some (.panicked [])
  | some none => some (.returned node [])
  | some (some request) =>
      Handling.handle codecs crypto fuel dial ⟨node, [], 0⟩ turns request

/-- The database is that of `NewBlockchain`. -/
def startServer (nodeAddress : Address) (miningAddress : Option Bytes) (store : BlockStore)
    (chainstate : Bucket) : Handled :=
  let node : FullNode :=
    { Peer.startServer nodeAddress store chainstate with miningAddress, mempool := ∅ }
  if node.nodeAddress = "localhost:3000" then .returned node []
  else .of (Handling.sendVersion codecs dial ⟨node, [], 0⟩ "localhost:3000")

end FullNode

/-! Servers, and requests on their way between them and from the command `send`. -/

structure Network where
  nodes : Address → Option FullNode
  flying : List Outgoing
  submitted : List Transaction

inductive NetworkAction where
  | start (nodeAddress : Address) (miningAddress : Option Bytes) (store : BlockStore)
      (chainstate : Bucket) (dial : Nat → Bool)
  | deliver (n : Nat) (dial : Nat → Bool) (turns : List MiningTurn)
  | lose (n : Nat)
  | submit (tx : Transaction)

instance : Inhabited NetworkAction := ⟨.lose 0⟩

namespace Network

/-- A panic ends the server. -/
def conclude (network : Network) (address : Address) : Handled → Network
  | .returned node sent =>
      { network with
        nodes := Function.update network.nodes address (some node)
        flying := network.flying ++ sent }
  | .panicked sent =>
      { network with
        nodes := Function.update network.nodes address none
        flying := network.flying ++ sent }

/-- The command `send` has no `nodeAddress`, and sends to the first of the known nodes. -/
def submit (codecs : Codecs) (network : Network) (tx : Transaction) : Option Network :=
  (Request.bytes codecs (.tx ⟨"", codecs.transaction.encode tx⟩)).map fun request =>
    { network with
      flying := network.flying ++ [("localhost:3000", request)]
      submitted := network.submitted ++ [tx] }

def step (codecs : Codecs) (crypto : Crypto) (fuel : Nat) (network : Network) :
    NetworkAction → Option Network
  | .start nodeAddress miningAddress store chainstate dial =>
      if (network.nodes nodeAddress).isSome then none
      else some (network.conclude nodeAddress
        (FullNode.startServer codecs dial nodeAddress miningAddress store chainstate))
  | .deliver n dial turns => do
      let (addr, request) ← network.flying[n]?
      let node ← network.nodes addr
      let handled ← node.handleConnection codecs crypto fuel dial turns request
      some ({ network with flying := network.flying.eraseIdx n }.conclude addr handled)
  | .lose n => some { network with flying := network.flying.eraseIdx n }
  | .submit tx => network.submit codecs tx

end Network

abbrev NetworkRun (codecs : Codecs) (crypto : Crypto) (fuel : Nat) :=
  Lib.Run (⟨fun _ => none, [], []⟩ : Network) (Network.step codecs crypto fuel)

end BlockchainTutorial.Bitcoin
