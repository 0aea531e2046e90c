import Mathlib.Algebra.Ring.Nat
import BlockchainTutorial.Bitcoin.Transaction

namespace BlockchainTutorial.Bitcoin

/-! `block.go`, `merkle_tree.go` and `proofofwork.go`. -/

structure Block where
  timestamp : Int
  transactions : List Transaction
  prevBlockHash : Bytes
  hash : Bytes
  nonce : Int
  height : Int
  deriving DecidableEq

/-- The eight bytes of an `int64`, the first one the highest. -/
def intToHex (num : Int) : Bytes :=
  (List.range 8).map fun i => UInt8.ofNat ((BitVec.ofInt 64 num).toNat / 256 ^ (7 - i))

theorem length_intToHex (num : Int) : (intToHex num).length = 8 := by
  rw [intToHex, List.length_map, List.length_range]

/-- One level of the tree; a node without a neighbour is an index out of range. -/
def newLevel (crypto : Crypto) : List Bytes → Option (List Bytes)
  | [] => some []
  | [_] => none
  | left :: right :: nodes =>
      (newLevel crypto nodes).map fun level => crypto.sha256 (left ++ right) :: level

def newLevels (crypto : Crypto) : Nat → List Bytes → Option (List Bytes)
  | 0, nodes => some nodes
  | count + 1, nodes => (newLevel crypto nodes).bind (newLevels crypto count)

def newMerkleTree (crypto : Crypto) (data : List Bytes) : Option Bytes :=
  let data := if data.length % 2 ≠ 0 then data ++ data.getLast?.toList else data
  (newLevels crypto (data.length / 2) (data.map crypto.sha256)).bind List.head?

def Block.hashTransactions (crypto : Crypto) (b : Block) : Option Bytes :=
  newMerkleTree crypto (b.transactions.map crypto.serialize)

namespace ProofOfWork

def maxNonce : Nat := 2 ^ 63 - 1

def targetBits : Nat := 16

def target : Nat := 2 ^ (256 - targetBits)

def prepareData (crypto : Crypto) (block : Block) (nonce : Int) : Option Bytes :=
  (block.hashTransactions crypto).map fun root =>
    block.prevBlockHash ++ root ++ intToHex block.timestamp ++ intToHex targetBits ++
      intToHex nonce

/-- The loop of `Run`, with the number of nonces that are left. -/
def search (crypto : Crypto) (block : Block) : Nat → Nat → Bytes → Option (Nat × Bytes)
  | 0, nonce, hash => some (nonce, hash)
  | left + 1, nonce, _ =>
      match prepareData crypto block nonce with
      | none => none
      | some data =>
          let hash := crypto.sha256 data
          if setBytes hash < target then some (nonce, hash)
          else search crypto block left (nonce + 1) hash

def run (crypto : Crypto) (block : Block) : Option (Nat × Bytes) :=
  search crypto block maxNonce 0 (List.replicate 32 0)

end ProofOfWork

/-- `timestamp` is `time.Now().Unix()`. -/
def newBlock (crypto : Crypto) (timestamp : Int) (transactions : List Transaction)
    (prevBlockHash : Bytes) (height : Int) : Option Block :=
  let block : Block := ⟨timestamp, transactions, prevBlockHash, [], 0, height⟩
  (ProofOfWork.run crypto block).map fun (nonce, hash) => { block with hash, nonce }

def newGenesisBlock (crypto : Crypto) (timestamp : Int) (coinbase : Transaction) :
    Option Block :=
  newBlock crypto timestamp [coinbase] [] 0

theorem transactions_of_newBlock {crypto : Crypto} {timestamp : Int}
    {transactions : List Transaction} {prevBlockHash : Bytes} {height : Int} {block : Block}
    (h : newBlock crypto timestamp transactions prevBlockHash height = some block) :
    block.transactions = transactions := by
  obtain ⟨⟨nonce, hash⟩, _, rfl⟩ := Option.map_eq_some_iff.mp h
  rfl

theorem newBlock_eq_some {crypto : Crypto} {timestamp : Int}
    {transactions : List Transaction} {prevBlockHash : Bytes} {height : Int} {block : Block}
    (h : newBlock crypto timestamp transactions prevBlockHash height = some block) :
    block.prevBlockHash = prevBlockHash ∧ block.height = height := by
  obtain ⟨⟨nonce, hash⟩, _, rfl⟩ := Option.map_eq_some_iff.mp h
  exact ⟨rfl, rfl⟩

/-- The hash of a block is one of the hash function. -/
theorem ProofOfWork.search_length {crypto : Crypto} {n : Nat}
    (hsha : ∀ data, (crypto.sha256 data).length = n) {block : Block} {left nonce : Nat}
    {hash : Bytes} (hhash : hash.length = n) {result : Nat × Bytes}
    (h : search crypto block left nonce hash = some result) : result.2.length = n := by
  induction left generalizing nonce hash with
  | zero =>
      cases h
      exact hhash
  | succ left ih =>
      simp only [search] at h
      split at h
      · cases h
      · split at h
        · cases h
          exact hsha _
        · exact ih (hsha _) h

theorem newBlock_hash_length {crypto : Crypto}
    (hsha : ∀ data, (crypto.sha256 data).length = 32) {timestamp : Int}
    {transactions : List Transaction} {prevBlockHash : Bytes} {height : Int} {block : Block}
    (h : newBlock crypto timestamp transactions prevBlockHash height = some block) :
    block.hash.length = 32 := by
  obtain ⟨⟨nonce, hash⟩, hrun, rfl⟩ := Option.map_eq_some_iff.mp h
  exact ProofOfWork.search_length hsha (List.length_replicate ..) hrun

end BlockchainTutorial.Bitcoin
