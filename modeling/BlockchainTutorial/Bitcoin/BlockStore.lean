import BlockchainTutorial.Lib.Links
import BlockchainTutorial.Lib.Run
import BlockchainTutorial.Bitcoin.Blockchain

namespace BlockchainTutorial.Bitcoin

/-! The bucket of `blockchain.go`, and `blockchain_iterator.go`. The bucket holds blocks
in place of their encodings. -/

/-- `last` is the hash under the key "l", and `tip` that of the `Blockchain`. -/
structure BlockStore where
  blocks : Lib.Mapping Bytes (Option Block)
  last : Bytes
  tip : Bytes

/-- The hash that the iterator reads next. -/
def Block.next (block : Block) : Option Bytes :=
  if block.prevBlockHash = [] then none else some block.prevBlockHash

theorem Block.next_eq_some {block : Block} {key : Bytes} (h : block.next = some key) :
    key = block.prevBlockHash := by
  unfold Block.next at h
  split at h
  · cases h
  · exact (Option.some.inj h).symm

def lastKey : Bytes := [108]

namespace BlockStore

def contains (store : BlockStore) (key : Bytes) : Bool :=
  key = lastKey || (store.blocks.get key).isSome

def put (store : BlockStore) (key : Bytes) (block : Block) : Option BlockStore :=
  if key = [] ∨ maxKeySize < key.length then none
  else some { store with blocks := store.blocks.set key (some block) }

def setTip (store : BlockStore) (hash : Bytes) : BlockStore :=
  { store with last := hash, tip := hash }

/-- `pubKeyHash` is that of the address. -/
def createBlockchain (crypto : Crypto) (timestamp : Int) (pubKeyHash : Bytes) :
    Option BlockStore := do
  let genesis ← newGenesisBlock crypto timestamp
    (newCoinbaseTX crypto pubKeyHash
      "The Times 03/Jan/2009 Chancellor on brink of second bailout for banks" [])
  let store : BlockStore := ⟨∅, [], []⟩
  (store.put genesis.hash genesis).map (·.setTip genesis.hash)

section Read

-- `decode` is what `DeserializeBlock` makes of the hash that is stored under "l"
variable (decode : Bytes → Option Block) (store : BlockStore)

/-- The block that is decoded from what is stored under a key. -/
def get (key : Bytes) : Option Block :=
  if key = lastKey then decode store.last else store.blocks.get key

def getBestHeight : Option Int :=
  (store.get decode store.last).map Block.height

/-- `BlockchainIterator.Next`, until the block has no `PrevBlockHash`. -/
def links : Lib.Links Bytes Block where
  get := store.get decode
  next := Block.next

/-! `fuel` is the number of rounds that a loop may take. -/

def findTransaction (fuel : Nat) (id : Bytes) : Option (Option Transaction) :=
  (store.links decode).loop
    (fun (_ : Unit) block =>
      match block.transactions.find? fun tx => tx.id = id with
      | some tx => .inr (some tx)
      | none => .inl ())
    (fun _ => none) fuel store.tip ()

def findUTXO (fuel : Nat) : Option Bucket :=
  (store.links decode).loop (fun scan block => .inl (Scan.block scan block)) Scan.utxo fuel
    store.tip ⟨∅, ∅⟩

def getBlockHashes (fuel : Nat) : Option (List Bytes) :=
  (store.links decode).loop (fun blocks block => .inl (blocks ++ [block.hash])) id fuel
    store.tip []

def verifyTransaction (crypto : Crypto) (fuel : Nat) (tx : Transaction) : Option Bool :=
  if tx.isCoinbase then some true
  else if tx.vin.any fun vin => (store.findTransaction decode fuel vin.txid).join.isNone then
    none
  else tx.verify crypto fun txid =>
    if tx.vin.any fun vin => vin.txid = txid then
      (store.findTransaction decode fuel txid).join
    else none

def addBlock (block : Block) : Option BlockStore :=
  if store.contains block.hash then some store
  else do
    let store ← store.put block.hash block
    let lastBlock ← store.get decode store.last
    if lastBlock.height < block.height then some (store.setTip block.hash) else some store

/-- The first part of `MineBlock`: the transactions are verified, and the tip is read. -/
def mineRead (crypto : Crypto) (fuel : Nat) (transactions : List Transaction) :
    Option (Bytes × Int) :=
  if transactions.all fun tx => store.verifyTransaction decode crypto fuel tx = some true then
    (store.get decode store.last).map fun block => (store.last, block.height)
  else none

end Read

/-- The last part of `MineBlock`. -/
def mineWrite (store : BlockStore) (block : Block) : Option BlockStore :=
  (store.put block.hash block).map (·.setTip block.hash)

end BlockStore

/-- The next number of type `int`. -/
def nextHeight (height : Int) : Int :=
  (height + 1).bmod (2 ^ 64)

/-- A call of `MineBlock` that has read the tip. -/
structure Mining where
  transactions : List Transaction
  lastHash : Bytes
  lastHeight : Int

def Mining.newBlock (mining : Mining) (crypto : Crypto) (timestamp : Int) : Option Block :=
  Bitcoin.newBlock crypto timestamp mining.transactions mining.lastHash
    (nextHeight mining.lastHeight)

def BlockStore.mineBlock (decode : Bytes → Option Block) (store : BlockStore)
    (crypto : Crypto) (fuel : Nat) (timestamp : Int) (transactions : List Transaction) :
    Option BlockStore := do
  let (lastHash, lastHeight) ← store.mineRead decode crypto fuel transactions
  let block ← Mining.newBlock ⟨transactions, lastHash, lastHeight⟩ crypto timestamp
  store.mineWrite block

/-! The transactions of the bucket that the handlers of a server make, in any order. -/

structure Handlers where
  store : BlockStore
  mining : List Mining

inductive HandlerAction where
  | addBlock (block : Block)
  | mineRead (fuel : Nat) (transactions : List Transaction)
  | mineWrite (n : Nat) (timestamp : Int)

instance : Inhabited HandlerAction := ⟨.mineRead 0 []⟩

/-- A panic ends the server. The height of a block that came in is of type `int`. -/
def Handlers.step (crypto : Crypto) (decode : Bytes → Option Block) (handlers : Handlers) :
    HandlerAction → Option Handlers
  | .addBlock block =>
      if -2 ^ 63 ≤ block.height ∧ block.height < 2 ^ 63 then
        (handlers.store.addBlock decode block).map fun store => { handlers with store }
      else none
  | .mineRead fuel transactions =>
      (handlers.store.mineRead decode crypto fuel transactions).map
        fun (lastHash, lastHeight) =>
          { handlers with mining := handlers.mining ++ [⟨transactions, lastHash, lastHeight⟩] }
  | .mineWrite n timestamp => do
      let mining ← handlers.mining[n]?
      let block ← mining.newBlock crypto timestamp
      let store ← handlers.store.mineWrite block
      some ⟨store, handlers.mining.eraseIdx n⟩

/-! What the transactions of the bucket do that do not panic. -/

namespace BlockStore

variable {decode : Bytes → Option Block} {store store' : BlockStore} {block : Block}

theorem contains_eq_false {key : Bytes} :
    store.contains key = false ↔ key ≠ lastKey ∧ store.blocks.get key = none := by
  simp [contains]

theorem get_of_ne {key : Bytes} (h : key ≠ lastKey) :
    store.get decode key = store.blocks.get key :=
  if_neg h

theorem links_get_of_ne {key : Bytes} (h : key ≠ lastKey) :
    (store.links decode).get key = store.blocks.get key :=
  if_neg h

theorem put_of_storable {key : Bytes} (h : Storable key) :
    store.put key block = some { store with blocks := store.blocks.set key (some block) } := by
  refine if_neg ?_
  rintro (hnil | hlong)
  · exact h.1 hnil
  · exact absurd hlong (Nat.not_lt.mpr h.2)

theorem put_eq_some {key : Bytes} (h : store.put key block = some store') :
    key ≠ [] ∧ store' = { store with blocks := store.blocks.set key (some block) } := by
  unfold put at h
  split at h
  · cases h
  · rename_i hkey
    cases h
    exact ⟨fun hnil => hkey (.inl hnil), rfl⟩

/-- A block that is not stored yet is stored, and then compared with the last one. -/
theorem addBlock_cases (h : store.addBlock decode block = some store') :
    (store.contains block.hash = true ∧ store' = store) ∨
      (store.contains block.hash = false ∧ block.hash ≠ [] ∧ ∃ lastBlock,
        get decode { store with blocks := store.blocks.set block.hash (some block) }
          store.last = some lastBlock ∧
        ((lastBlock.height < block.height ∧
            store' = ⟨store.blocks.set block.hash (some block), block.hash, block.hash⟩) ∨
          (block.height ≤ lastBlock.height ∧
            store' = { store with blocks := store.blocks.set block.hash (some block) }))) := by
  unfold addBlock at h
  split at h
  · rename_i hstored
    cases h
    exact .inl ⟨hstored, rfl⟩
  · rename_i hnew
    obtain ⟨stored, hput, h⟩ := Option.bind_eq_some_iff.mp h
    obtain ⟨hhash, rfl⟩ := put_eq_some hput
    obtain ⟨lastBlock, hlast, h⟩ := Option.bind_eq_some_iff.mp h
    refine .inr ⟨by simpa using hnew, hhash, lastBlock, hlast, ?_⟩
    split at h
    · rename_i hhigher
      cases h
      exact .inl ⟨hhigher, rfl⟩
    · rename_i hlower
      cases h
      exact .inr ⟨Int.not_lt.mp hlower, rfl⟩

/-- The last block is still the one that is stored. -/
theorem addBlock_eq_some {lastBlock : Block}
    (hlast : store.blocks.get store.last = some lastBlock) (hne : store.last ≠ lastKey)
    (h : store.addBlock decode block = some store') :
    (store.contains block.hash = true ∧ store' = store) ∨
      (store.contains block.hash = false ∧ block.hash ≠ [] ∧
        ((lastBlock.height < block.height ∧
            store' = ⟨store.blocks.set block.hash (some block), block.hash, block.hash⟩) ∨
          (block.height ≤ lastBlock.height ∧
            store' = { store with blocks := store.blocks.set block.hash (some block) }))) := by
  rcases addBlock_cases h with hstored | ⟨hnew, hhash, lastBlock', hlast', hmoved⟩
  · exact .inl hstored
  · have hother : store.last ≠ block.hash := by
      intro heq
      rw [heq, (contains_eq_false.mp hnew).2] at hlast
      cases hlast
    rw [get_of_ne hne, Lib.Mapping.get_set_of_ne _ _ hother, hlast] at hlast'
    cases hlast'
    exact .inr ⟨hnew, hhash, hmoved⟩

theorem contains_set {key : Bytes} {last tip : Bytes} :
    contains ⟨store.blocks.set block.hash (some block), last, tip⟩ key =
      (store.contains key || decide (key = block.hash)) := by
  unfold contains
  by_cases heq : key = block.hash
  · subst heq
    simp
  · simp [Lib.Mapping.get_set_of_ne _ _ heq, heq]

/-- Afterwards the block is stored, and what was stored before. -/
theorem addBlock_contains (h : store.addBlock decode block = some store') (key : Bytes) :
    store'.contains key = (store.contains key || decide (key = block.hash)) := by
  rcases addBlock_cases h with ⟨hstored, rfl⟩ | ⟨_, _, _, _, ⟨_, rfl⟩ | ⟨_, rfl⟩⟩
  · by_cases heq : key = block.hash
    · rw [heq, hstored, Bool.true_or]
    · simp [heq]
  · exact contains_set
  · exact contains_set

/-- The tip moves to the mined block, whatever was stored in between. -/
theorem mineWrite_eq_some (h : store.mineWrite block = some store') :
    block.hash ≠ [] ∧
      store' = ⟨store.blocks.set block.hash (some block), block.hash, block.hash⟩ := by
  obtain ⟨stored, hput, rfl⟩ := Option.map_eq_some_iff.mp h
  obtain ⟨hhash, rfl⟩ := put_eq_some hput
  exact ⟨hhash, rfl⟩

theorem mineRead_eq_some {crypto : Crypto} {fuel : Nat} {transactions : List Transaction}
    {lastHash : Bytes} {lastHeight : Int}
    (h : store.mineRead decode crypto fuel transactions = some (lastHash, lastHeight)) :
    lastHash = store.last ∧
      ∃ block, store.get decode store.last = some block ∧ block.height = lastHeight := by
  unfold mineRead at h
  split at h
  · obtain ⟨block, hlast, heq⟩ := Option.map_eq_some_iff.mp h
    cases heq
    exact ⟨rfl, block, hlast, rfl⟩
  · cases h

end BlockStore

namespace Handlers

/-- What a step does to the store and to the calls of `MineBlock`. -/
inductive Stepped (crypto : Crypto) (decode : Bytes → Option Block) (handlers : Handlers) :
    HandlerAction → Handlers → Prop
  | addBlock (block : Block) (store : BlockStore)
      (hint : -2 ^ 63 ≤ block.height ∧ block.height < 2 ^ 63)
      (hadd : handlers.store.addBlock decode block = some store) :
      Stepped crypto decode handlers (.addBlock block) { handlers with store }
  | mineRead (fuel : Nat) (transactions : List Transaction) (block : Block)
      (hlast : handlers.store.get decode handlers.store.last = some block) :
      Stepped crypto decode handlers (.mineRead fuel transactions)
        { handlers with
          mining := handlers.mining ++ [⟨transactions, handlers.store.last, block.height⟩] }
  | mineWrite (n : Nat) (timestamp : Int) (mining : Mining) (block : Block)
      (store : BlockStore) (hmining : handlers.mining[n]? = some mining)
      (hblock : mining.newBlock crypto timestamp = some block)
      (hwrite : handlers.store.mineWrite block = some store) :
      Stepped crypto decode handlers (.mineWrite n timestamp)
        ⟨store, handlers.mining.eraseIdx n⟩

theorem step_eq_some {crypto : Crypto} {decode : Bytes → Option Block}
    {handlers handlers' : Handlers} {action : HandlerAction}
    (h : handlers.step crypto decode action = some handlers') :
    Stepped crypto decode handlers action handlers' := by
  cases action with
  | addBlock block =>
      simp only [step] at h
      split at h
      · rename_i hint
        obtain ⟨store, hadd, rfl⟩ := Option.map_eq_some_iff.mp h
        exact .addBlock block store hint hadd
      · cases h
  | mineRead fuel transactions =>
      obtain ⟨⟨lastHash, lastHeight⟩, hread, rfl⟩ := Option.map_eq_some_iff.mp h
      obtain ⟨rfl, block, hlast, rfl⟩ := BlockStore.mineRead_eq_some hread
      exact .mineRead fuel transactions block hlast
  | mineWrite n timestamp =>
      obtain ⟨mining, hmining, h⟩ := Option.bind_eq_some_iff.mp h
      obtain ⟨block, hblock, h⟩ := Option.bind_eq_some_iff.mp h
      obtain ⟨store, hwrite, h⟩ := Option.bind_eq_some_iff.mp h
      cases h
      exact .mineWrite n timestamp mining block store hmining hblock hwrite

end Handlers

abbrev HandlerRun (crypto : Crypto) (decode : Bytes → Option Block) (store : BlockStore) :=
  Lib.Run (⟨store, []⟩ : Handlers) (Handlers.step crypto decode)

end BlockchainTutorial.Bitcoin
