import Mathlib.Data.List.AList
import BlockchainTutorial.Lib.Run
import BlockchainTutorial.Bitcoin.Blockchain

namespace BlockchainTutorial.Bitcoin

/-! `handleTx` of `server.go`, without what it sends to other nodes. A panic ends the
node. -/

structure Node where
  chain : Chain
  mempool : AList fun _ : Bytes => Transaction
  -- the loop `MineTransactions` goes on
  mining : Bool

/-- `central` is `nodeAddress == knownNodes[0]`; the mining address stands for its
public key hash. -/
structure Config where
  central : Bool
  miningAddress : Option Bytes

inductive NodeAction where
  | mineBlock (timestamp : Int) (transactions : List Transaction)
  | handleTx (tx : Transaction)
  | mineTransactions (order : List Bytes) (timestamp : Int) (randData : Bytes)

instance : Inhabited NodeAction := ⟨.mineBlock 0 []⟩

/-- The transactions of the mempool that are verified, in the order of the loop. -/
def verified (crypto : Crypto) (chain : Chain) :
    List Transaction → Option (List Transaction)
  | [] => some []
  | tx :: txs =>
      match verifyTransaction crypto chain tx with
      | none => none
      | some true => (verified crypto chain txs).map (tx :: ·)
      | some false => verified crypto chain txs

namespace Node

variable (crypto : Crypto) (config : Config)

def handleTx (node : Node) (tx : Transaction) : Node :=
  let mempool := node.mempool.insert tx.id tx
  { node with
    mempool
    mining := node.mining ||
      (!config.central && decide (2 ≤ mempool.keys.length) && config.miningAddress.isSome) }

/-- One turn of the loop. The map is read in any order. -/
def mineTransactions (node : Node) (order : List Bytes) (timestamp : Int)
    (randData : Bytes) : Option Node :=
  if node.mining ∧ order.Perm node.mempool.keys then
    match verified crypto node.chain (order.filterMap node.mempool.lookup) with
    | none => none
    | some [] => some { node with mining := false }
    | some (tx :: txs) => do
        let miningAddress ← config.miningAddress
        let txs := tx :: txs ++ [newCoinbaseTX crypto miningAddress "" randData]
        let chain ← Bitcoin.mineBlock crypto timestamp node.chain txs
        let mempool := txs.foldl (fun mempool tx => mempool.erase tx.id) node.mempool
        some { chain, mempool, mining := decide (0 < mempool.keys.length) }
  else none

def step (node : Node) : NodeAction → Option Node
  | .mineBlock timestamp txs =>
      (Bitcoin.mineBlock crypto timestamp node.chain txs).map fun chain => { node with chain }
  | .handleTx tx => some (node.handleTx config tx)
  | .mineTransactions order timestamp randData =>
      node.mineTransactions crypto config order timestamp randData

end Node

abbrev NodeRun (crypto : Crypto) (config : Config) (chain : Chain) :=
  Lib.Run (⟨chain, ∅, false⟩ : Node) (Node.step crypto config)

end BlockchainTutorial.Bitcoin
