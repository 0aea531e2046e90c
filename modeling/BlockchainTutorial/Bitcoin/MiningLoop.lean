import BlockchainTutorial.Lib.Loops
import BlockchainTutorial.Lib.Positions
import BlockchainTutorial.Bitcoin.Supply
import BlockchainTutorial.Bitcoin.MerkleTree
import BlockchainTutorial.Bitcoin.Reindex

namespace BlockchainTutorial.Bitcoin

/-! The whole loop `MineTransactions` of `handleTx`. It verifies the mempool, mines what is
valid, and goes on until nothing valid or nothing at all is left. -/

open Lib (Turn Outcome loop Returns GoesOn)

variable {crypto : Crypto} {chain : Chain} {tx : Transaction}

/-! Where `VerifyTransaction` returns. -/

/-- The output that an input names on the chain. -/
def spentOutput (chain : Chain) (vin : TXInput) : Option TXOutput :=
  (findTransaction chain vin.txid).bind fun prevTx => outputAt prevTx.vout vin.vout

/-- The signature of an input passes. -/
def Signed (crypto : Crypto) (chain : Chain) (tx : Transaction) (inID : Nat)
    (vin : TXInput) : Prop :=
  ∃ out, spentOutput chain vin = some out ∧
    crypto.ecdsaVerify (Transaction.rawPubKey vin) (tx.signedData inID out)
      (Transaction.halves vin.signature).1 (Transaction.halves vin.signature).2 = true

/-- All transactions that are spent from are on the chain under IDs that are not empty, and
the outputs are there, up to the first signature that fails. -/
structure SpendsKnown (crypto : Crypto) (chain : Chain) (tx : Transaction) : Prop where
  found : ∀ vin ∈ tx.vin, vin.txid ≠ [] ∧ (findTransaction chain vin.txid).isSome
  inRange : ∀ inID vin, tx.vin[inID]? = some vin →
    (∀ earlier vin', earlier < inID → tx.vin[earlier]? = some vin' →
      Signed crypto chain tx earlier vin') →
        (spentOutput chain vin).isSome

def Checkable (crypto : Crypto) (chain : Chain) (tx : Transaction) : Prop :=
  tx.isCoinbase = true ∨ SpendsKnown crypto chain tx

/-- An input names an output of the map, and its signature passes. -/
def Transaction.InputPasses (crypto : Crypto) (prevTXs : Bytes → Option Transaction)
    (tx : Transaction) (inID : Nat) (vin : TXInput) : Prop :=
  ∃ out, outputAt (prevTX prevTXs vin.txid).vout vin.vout = some out ∧
    crypto.ecdsaVerify (rawPubKey vin) (tx.signedData inID out)
      (halves vin.signature).1 (halves vin.signature).2 = true

/-- `Verify` gets through its inputs. -/
theorem Transaction.verifyInputs_isSome {prevTXs : Bytes → Option Transaction}
    (vins : List TXInput) (first : Nat) :
    (verifyInputs crypto prevTXs tx.trimmedCopy first vins).isSome ↔
      ∀ i vin, vins[i]? = some vin →
        (∀ j vin', j < i → vins[j]? = some vin' →
          tx.InputPasses crypto prevTXs (first + j) vin') →
            (outputAt (prevTX prevTXs vin.txid).vout vin.vout).isSome := by
  induction vins generalizing first with
  | nil => simp [verifyInputs]
  | cons vin vins ih =>
      rw [Lib.forall_until_cons, ← ih, verifyInputs]
      unfold InputPasses signedData
      cases hout : outputAt (prevTX prevTXs vin.txid).vout vin.vout with
      | none => simp
      | some out =>
          simp only [setPubKey_nil]
          cases hverify : crypto.ecdsaVerify (rawPubKey vin)
              (tx.trimmedCopy.setPubKey first out.pubKeyHash).sprintf
              (halves vin.signature).1 (halves vin.signature).2 with
          | false => simp [hverify]
          | true => simp [hverify]

theorem outputAt_prevTXsOf {vin : TXInput} (hmem : vin ∈ tx.vin)
    (hfound : (findTransaction chain vin.txid).isSome) :
    outputAt (Transaction.prevTX (prevTXsOf chain tx) vin.txid).vout vin.vout =
      spentOutput chain vin := by
  obtain ⟨prevTx, hprev⟩ := Option.isSome_iff_exists.mp hfound
  rw [prevTX_prevTXsOf hmem hprev, spentOutput, hprev, Option.bind_some]

theorem inputPasses_prevTXsOf {inID : Nat} {vin : TXInput} (hmem : vin ∈ tx.vin)
    (hfound : (findTransaction chain vin.txid).isSome) :
    tx.InputPasses crypto (prevTXsOf chain tx) inID vin ↔ Signed crypto chain tx inID vin := by
  unfold Transaction.InputPasses Signed
  rw [outputAt_prevTXsOf hmem hfound]

theorem verify_isSome_iff (hcoinbase : tx.isCoinbase = false)
    (hfound : ∀ vin ∈ tx.vin, (findTransaction chain vin.txid).isSome) :
    (tx.verify crypto (prevTXsOf chain tx)).isSome ↔ SpendsKnown crypto chain tx := by
  have hid : ∀ vin ∈ tx.vin,
      (Transaction.prevTX (prevTXsOf chain tx) vin.txid).id = vin.txid := by
    intro vin hmem
    obtain ⟨prevTx, hprev⟩ := Option.isSome_iff_exists.mp (hfound vin hmem)
    rw [prevTX_prevTXsOf hmem hprev, findTransaction_id hprev]
  unfold Transaction.verify
  rw [hcoinbase, if_neg Bool.false_ne_true]
  split
  · rename_i hempty
    refine iff_of_false (by simp) fun h => ?_
    obtain ⟨vin, hmem, hnone⟩ := List.any_eq_true.mp hempty
    exact (h.found vin hmem).1 ((hid vin hmem).symm.trans (of_decide_eq_true hnone))
  · rename_i hpresent
    have hne : ∀ vin ∈ tx.vin, vin.txid ≠ [] := by
      intro vin hmem hnone
      refine hpresent (List.any_eq_true.mpr ⟨vin, hmem, decide_eq_true ?_⟩)
      rw [hid vin hmem, hnone]
    rw [Transaction.verifyInputs_isSome]
    have hread : ∀ {inID : Nat} {vin}, tx.vin[inID]? = some vin →
        vin ∈ tx.vin ∧ (findTransaction chain vin.txid).isSome := by
      intro inID vin hvin
      have hmem := List.mem_of_getElem? hvin
      exact ⟨hmem, hfound vin hmem⟩
    constructor
    · intro h
      refine ⟨fun vin hmem => ⟨hne vin hmem, hfound vin hmem⟩, ?_⟩
      intro inID vin hvin hearlier
      rw [← outputAt_prevTXsOf (hread hvin).1 (hread hvin).2]
      refine h inID vin hvin ?_
      intro j vin' hj hvin'
      rw [inputPasses_prevTXsOf (hread hvin').1 (hread hvin').2, Nat.zero_add]
      exact hearlier j vin' hj hvin'
    · intro h inID vin hvin hearlier
      rw [outputAt_prevTXsOf (hread hvin).1 (hread hvin).2]
      refine h.inRange inID vin hvin ?_
      intro j vin' hj hvin'
      have hpasses := hearlier j vin' hj hvin'
      rwa [inputPasses_prevTXsOf (hread hvin').1 (hread hvin').2, Nat.zero_add] at hpasses

/-- `VerifyTransaction` returns exactly where a transaction is checkable. -/
theorem verifyTransaction_isSome_iff :
    (verifyTransaction crypto chain tx).isSome ↔ Checkable crypto chain tx := by
  unfold Checkable
  cases hcoinbase : tx.isCoinbase with
  | true => simp [verifyTransaction, hcoinbase]
  | false =>
      simp only [Bool.false_eq_true, false_or]
      constructor
      · intro h
        have hfound := found_of_verifyTransaction hcoinbase h
        rw [verifyTransaction_of_found hcoinbase hfound] at h
        exact (verify_isSome_iff hcoinbase hfound).mp h
      · intro h
        have hfound := fun vin hmem => (h.found vin hmem).2
        rw [verifyTransaction_of_found hcoinbase hfound]
        exact (verify_isSome_iff hcoinbase hfound).mpr h

/-! The mempool and the loop. -/

/-- `handleTx` puts each transaction under its own ID. -/
structure Mempool where
  txs : AList fun _ : Bytes => Transaction
  keyed : ∀ id tx, txs.lookup id = some tx → tx.id = id

namespace Mempool

def lookup (mempool : Mempool) (id : Bytes) : Option Transaction :=
  mempool.txs.lookup id

def insert (mempool : Mempool) (tx : Transaction) : Mempool where
  txs := mempool.txs.insert tx.id tx
  keyed := by
    intro id other hlookup
    by_cases hid : id = tx.id
    · subst hid
      rw [AList.lookup_insert] at hlookup
      cases hlookup
      rfl
    · rw [AList.lookup_insert_ne hid] at hlookup
      exact mempool.keyed id other hlookup

def delete (mempool : Mempool) (tx : Transaction) : Mempool where
  txs := mempool.txs.erase tx.id
  keyed := by
    intro id other hlookup
    by_cases hid : id = tx.id
    · subst hid
      rw [AList.lookup_erase] at hlookup
      cases hlookup
    · rw [AList.lookup_erase_ne hid] at hlookup
      exact mempool.keyed id other hlookup

theorem lookup_delete (mempool : Mempool) (tx : Transaction) (id : Bytes) :
    (mempool.delete tx).lookup id = if id = tx.id then none else mempool.lookup id := by
  split
  · rename_i hid
    subst hid
    exact AList.lookup_erase _ _
  · rename_i hid
    exact AList.lookup_erase_ne hid

theorem length_delete_le (mempool : Mempool) (tx : Transaction) :
    (mempool.delete tx).txs.keys.length ≤ mempool.txs.keys.length := by
  change (mempool.txs.erase tx.id).keys.length ≤ _
  rw [AList.keys_erase]
  exact (@List.erase_sublist _ instBEqOfDecidableEq _ _).length_le

theorem length_deletes_le (mempool : Mempool) (txs : List Transaction) :
    (txs.foldl delete mempool).txs.keys.length ≤ mempool.txs.keys.length := by
  induction txs generalizing mempool with
  | nil => exact Nat.le_refl _
  | cons tx txs ih => exact Nat.le_trans (ih _) (mempool.length_delete_le tx)

theorem length_delete_lt {mempool : Mempool} {tx : Transaction}
    (h : mempool.lookup tx.id = some tx) :
    (mempool.delete tx).txs.keys.length < mempool.txs.keys.length := by
  have hmem : tx.id ∈ mempool.txs.keys := by
    change tx.id ∈ mempool.txs
    rw [← AList.lookup_isSome]
    exact Option.isSome_of_eq_some h
  change (mempool.txs.erase tx.id).keys.length < _
  rw [AList.keys_erase, @List.length_erase_of_mem _ instBEqOfDecidableEq _ _ _ hmem]
  exact Nat.sub_lt (List.length_pos_of_mem hmem) Nat.one_pos

theorem lookup_of_keys_eq_nil {mempool : Mempool} (h : mempool.txs.keys = []) (id : Bytes) :
    mempool.lookup id = none := by
  refine AList.lookup_eq_none.mpr ?_
  change id ∉ mempool.txs.keys
  rw [h]
  exact List.not_mem_nil

theorem lookup_deletes (mempool : Mempool) (txs : List Transaction) (id : Bytes) :
    (txs.foldl delete mempool).lookup id =
      if id ∈ txs.map (·.id) then none else mempool.lookup id := by
  induction txs generalizing mempool with
  | nil => rfl
  | cons tx txs ih =>
      rw [List.foldl_cons, ih, lookup_delete]
      by_cases hid : id = tx.id <;> simp [hid]

end Mempool

structure Miner where
  chain : Chain
  mempool : Mempool

/-- What a turn depends on: the order in which the map is read, the clock, and the bytes
of the coinbase. -/
structure TurnChoice (miner : Miner) where
  order : List Bytes
  timestamp : Int
  randData : Bytes
  order_perm : order.Perm miner.mempool.txs.keys

section Loop

-- the mempool gets smaller in every turn, so a run comes to no state twice
variable (crypto : Crypto) (miningAddress : Bytes) (choices : (miner : Miner) → TurnChoice miner)

/-- The transactions of the mempool, as the loop reads them. -/
def readPool (miner : Miner) : List Transaction :=
  (choices miner).order.filterMap miner.mempool.lookup

def turnCoinbase (miner : Miner) : Transaction :=
  newCoinbaseTX crypto miningAddress "" (choices miner).randData

/-- One turn, from the label on. -/
def mineTurn (miner : Miner) : Option (Turn Miner (List Transaction)) := do
  let txs ← verified crypto miner.chain (readPool choices miner)
  if txs = [] then some .stop
  else
    let transactions := txs ++ [turnCoinbase crypto miningAddress choices miner]
    let chain ← mineBlock crypto (choices miner).timestamp miner.chain transactions
    -- `Reindex`
    let _ ← UTXOSet.write UTXOSet.cleared (findUTXO chain)
    let mempool := transactions.foldl Mempool.delete miner.mempool
    if 0 < mempool.txs.keys.length then some (.next txs ⟨chain, mempool⟩)
    else some (.last txs ⟨chain, mempool⟩)

/-- The records are the transactions of the mempool that each block took. -/
def mineTransactions : Nat → Miner → Outcome Miner (List Transaction) :=
  loop (mineTurn crypto miningAddress choices)

end Loop

section Node

variable {miningAddress : Bytes} {choices : (miner : Miner) → TurnChoice miner}

/-- The node in the middle of the loop. -/
def Miner.node (miner : Miner) (mining : Bool) : Node :=
  ⟨miner.chain, miner.mempool.txs, mining⟩

/-- The node after a turn. -/
def nodeAfter (miner : Miner) : Turn Miner (List Transaction) → Node
  | .stop => miner.node false
  | .next _ miner' => miner'.node true
  | .last _ miner' => miner'.node false

theorem txs_foldl_delete (txs : List Transaction) (mempool : Mempool) :
    (txs.foldl Mempool.delete mempool).txs =
      txs.foldl (fun mempool tx => mempool.erase tx.id) mempool.txs := by
  induction txs generalizing mempool with
  | nil => rfl
  | cons tx txs ih => exact ih (mempool.delete tx)

def turnAction (choices : (miner : Miner) → TurnChoice miner) (miner : Miner) : NodeAction :=
  .mineTransactions (choices miner).order (choices miner).timestamp (choices miner).randData

/-- A turn that does not panic is one of the node. -/
theorem step_turnAction {central : Bool} {miner : Miner} {turn : Turn Miner (List Transaction)}
    (h : mineTurn crypto miningAddress choices miner = some turn) :
    (miner.node true).step crypto ⟨central, some miningAddress⟩ (turnAction choices miner) =
      some (nodeAfter miner turn) := by
  unfold mineTurn at h
  obtain ⟨txs, hverified, h⟩ := Option.bind_eq_some_iff.mp h
  unfold turnAction Node.step
  dsimp only
  unfold Node.mineTransactions
  rw [if_pos ⟨rfl, (choices miner).order_perm⟩]
  have hread : verified crypto (miner.node true).chain
      ((choices miner).order.filterMap (miner.node true).mempool.lookup) = some txs := hverified
  rw [hread]
  cases txs with
  | nil =>
      cases h
      rfl
  | cons tx txs =>
      obtain ⟨chain, hmine, h⟩ := Option.bind_eq_some_iff.mp h
      obtain ⟨bucket, _, h⟩ := Option.bind_eq_some_iff.mp h
      have hblock : mineBlock crypto (choices miner).timestamp (miner.node true).chain
          (tx :: txs ++ [newCoinbaseTX crypto miningAddress "" (choices miner).randData]) =
            some chain := hmine
      dsimp only [Option.bind_eq_bind, Option.bind_some]
      rw [hblock, Option.bind_some]
      have htxs : ((tx :: txs ++ [turnCoinbase crypto miningAddress choices miner]).foldl
          Mempool.delete miner.mempool).txs =
            (tx :: txs ++ [newCoinbaseTX crypto miningAddress "" (choices miner).randData]).foldl
              (fun mempool tx => mempool.erase tx.id) (miner.node true).mempool :=
        txs_foldl_delete _ _
      rw [← htxs]
      dsimp only at h
      split at h
      · rename_i hmore
        cases h
        rw [decide_eq_true hmore]
        rfl
      · rename_i hdone
        cases h
        rw [decide_eq_false hdone]
        rfl

/-- A loop that returns has taken the node through its turns. -/
theorem exec_of_returns (central : Bool) {miner final : Miner} {blocks : List (List Transaction)}
    (hreturns : Returns (mineTurn crypto miningAddress choices) miner blocks final) :
    ∃ actions, Lib.exec (Node.step crypto ⟨central, some miningAddress⟩) (miner.node true)
      actions = some (final.node false) := by
  induction hreturns with
  | @stop miner hturn =>
      refine ⟨[turnAction choices miner], ?_⟩
      rw [Lib.exec, step_turnAction hturn]
      rfl
  | @last miner final txs hturn =>
      refine ⟨[turnAction choices miner], ?_⟩
      rw [Lib.exec, step_turnAction hturn]
      rfl
  | @next miner miner' final txs blocks hturn _ ih =>
      obtain ⟨actions, hactions⟩ := ih
      refine ⟨turnAction choices miner :: actions, ?_⟩
      rw [Lib.exec, step_turnAction hturn]
      exact hactions

end Node

theorem verified_isSome_iff {pool : List Transaction} :
    (verified crypto chain pool).isSome ↔ ∀ tx ∈ pool, Checkable crypto chain tx := by
  induction pool with
  | nil => simp [verified]
  | cons tx pool ih =>
      rw [List.forall_mem_cons, ← ih, ← verifyTransaction_isSome_iff]
      cases hverify : verifyTransaction crypto chain tx with
      | none => simp [verified, hverify]
      | some valid => cases valid <;> simp [verified, hverify]

theorem verified_eq_filter {pool txs : List Transaction}
    (h : verified crypto chain pool = some txs) :
    txs = pool.filter fun tx => verifyTransaction crypto chain tx = some true := by
  induction pool generalizing txs with
  | nil =>
      cases h
      rfl
  | cons tx pool ih =>
      unfold verified at h
      split at h
      · cases h
      · rename_i hvalid
        obtain ⟨rest, hrest, rfl⟩ := Option.map_eq_some_iff.mp h
        rw [List.filter_cons_of_pos (by simp [hvalid]), ← ih hrest]
      · rename_i hinvalid
        rw [List.filter_cons_of_neg (by simp [hinvalid]), ← ih h]

theorem mineBlock_isSome_iff {timestamp : Int} {txs : List Transaction} (hchain : chain ≠ [])
    (hne : txs ≠ []) (hvalid : ∀ tx ∈ txs, verifyTransaction crypto chain tx = some true) :
    (mineBlock crypto timestamp chain txs).isSome ↔ txs.length ≤ 4 := by
  unfold mineBlock
  rw [if_pos (by simpa using hvalid)]
  cases chain with
  | nil => exact absurd rfl hchain
  | cons last chain =>
      dsimp only
      rw [Option.isSome_map, newBlock_isSome_iff crypto hne]

theorem newCoinbaseTX_isCoinbase (pubKeyHash : Bytes) (data : String) (randData : Bytes) :
    (newCoinbaseTX crypto pubKeyHash data randData).isCoinbase = true :=
  rfl

theorem verifyTransaction_coinbase (h : tx.isCoinbase = true) :
    verifyTransaction crypto chain tx = some true :=
  if_pos h

section Pool

variable {choices : (miner : Miner) → TurnChoice miner} {miner : Miner}

theorem mem_readPool :
    tx ∈ readPool choices miner ↔ miner.mempool.lookup tx.id = some tx := by
  unfold readPool
  rw [List.mem_filterMap]
  constructor
  · rintro ⟨id, _, hlookup⟩
    rwa [miner.mempool.keyed id tx hlookup]
  · intro hlookup
    refine ⟨tx.id, ?_, hlookup⟩
    have hmem : tx.id ∈ miner.mempool.txs := by
      rw [← AList.lookup_isSome]
      exact Option.isSome_of_eq_some hlookup
    exact (choices miner).order_perm.mem_iff.mpr hmem

theorem ids_readPool : (readPool choices miner).map (·.id) = (choices miner).order := by
  have hkeys : ∀ id ∈ (choices miner).order, (miner.mempool.lookup id).isSome := by
    intro id hid
    exact AList.lookup_isSome.mpr ((choices miner).order_perm.mem_iff.mp hid)
  unfold readPool
  generalize (choices miner).order = order at hkeys
  induction order with
  | nil => rfl
  | cons id order ih =>
      obtain ⟨tx, htx⟩ := Option.isSome_iff_exists.mp (hkeys id List.mem_cons_self)
      rw [List.filterMap_cons_some htx, List.map_cons, miner.mempool.keyed id tx htx,
        ih fun other hother => hkeys other (List.mem_cons_of_mem _ hother)]

theorem nodup_readPool : ((readPool choices miner).map (·.id)).Nodup := by
  rw [ids_readPool, (choices miner).order_perm.nodup_iff]
  exact miner.mempool.txs.keys_nodup

end Pool

/-- All IDs with outputs that a scan finds unspent, with these transactions in the tip, can
be stored. -/
def Storing (chain : Chain) (transactions : List Transaction) : Prop :=
  ∀ id, (findUTXO (⟨0, transactions, [], [], 0, 0⟩ :: chain)).get id ≠ none → Storable id

theorem write_isSome_iff (chain : Chain) (block : Block) :
    (UTXOSet.write UTXOSet.cleared (findUTXO (block :: chain))).isSome ↔
      Storing chain block.transactions :=
  UTXOSet.write_isSome

section Turn

variable (crypto) (miningAddress : Bytes) (choices : (miner : Miner) → TurnChoice miner)

/-- The valid transactions of the mempool. -/
def validPool (miner : Miner) : List Transaction :=
  (readPool choices miner).filter fun tx =>
    verifyTransaction crypto miner.chain tx = some true

/-- The transactions of the block of a turn. -/
def turnBlock (miner : Miner) : List Transaction :=
  validPool crypto choices miner ++ [turnCoinbase crypto miningAddress choices miner]

/-- No call of the turn panics, and no transaction that stays has the ID of the coinbase. -/
structure TurnFits (miner : Miner) : Prop where
  checkable : ∀ id tx, miner.mempool.lookup id = some tx → Checkable crypto miner.chain tx
  few : (validPool crypto choices miner).length ≤ 3
  storing : validPool crypto choices miner ≠ [] →
    Storing miner.chain (turnBlock crypto miningAddress choices miner)
  apart : validPool crypto choices miner ≠ [] → ∀ id tx,
    miner.mempool.lookup id = some tx →
      verifyTransaction crypto miner.chain tx ≠ some true →
        id ≠ (turnCoinbase crypto miningAddress choices miner).id

/-- What a turn that mines does. -/
structure Mines (miner : Miner) (txs : List Transaction) (miner' : Miner) : Prop where
  valid : txs = validPool crypto choices miner
  nonempty : txs ≠ []
  checkable : ∀ id tx, miner.mempool.lookup id = some tx → Checkable crypto miner.chain tx
  few : txs.length ≤ 3
  storing : Storing miner.chain (turnBlock crypto miningAddress choices miner)
  tip : ∃ block : Block,
    block.transactions = turnBlock crypto miningAddress choices miner ∧
      miner'.chain = block :: miner.chain
  deletes : miner'.mempool =
    (turnBlock crypto miningAddress choices miner).foldl Mempool.delete miner.mempool

variable {crypto miningAddress choices} {miner miner' : Miner} {txs : List Transaction}

theorem forall_readPool {P : Transaction → Prop} :
    (∀ tx ∈ readPool choices miner, P tx) ↔
      ∀ id tx, miner.mempool.lookup id = some tx → P tx := by
  constructor
  · intro hall id tx hlookup
    refine hall tx (mem_readPool.mpr ?_)
    rwa [miner.mempool.keyed id tx hlookup]
  · intro hall tx hmem
    exact hall tx.id tx (mem_readPool.mp hmem)

theorem mem_validPool : tx ∈ validPool crypto choices miner ↔
    miner.mempool.lookup tx.id = some tx ∧
      verifyTransaction crypto miner.chain tx = some true := by
  unfold validPool
  rw [List.mem_filter, mem_readPool, decide_eq_true_iff]

theorem verified_turnBlock {tx : Transaction}
    (h : tx ∈ turnBlock crypto miningAddress choices miner) :
    verifyTransaction crypto miner.chain tx = some true := by
  rcases List.mem_append.mp h with hmem | hmem
  · exact (mem_validPool.mp hmem).2
  · rw [List.mem_singleton.mp hmem]
    exact verifyTransaction_coinbase (newCoinbaseTX_isCoinbase _ _ _)

variable (crypto choices miner) in
theorem verified_readPool_isSome :
    (verified crypto miner.chain (readPool choices miner)).isSome ↔
      ∀ id tx, miner.mempool.lookup id = some tx → Checkable crypto miner.chain tx :=
  verified_isSome_iff.trans forall_readPool

variable (crypto miningAddress choices) in
theorem mineBlock_turnBlock_isSome (hchain : miner.chain ≠ []) :
    (mineBlock crypto (choices miner).timestamp miner.chain
      (turnBlock crypto miningAddress choices miner)).isSome ↔
        (validPool crypto choices miner).length ≤ 3 := by
  have hne : turnBlock crypto miningAddress choices miner ≠ [] :=
    List.append_ne_nil_of_right_ne_nil _ (List.cons_ne_nil _ _)
  rw [mineBlock_isSome_iff hchain hne fun tx htx => verified_turnBlock htx, turnBlock,
    List.length_append, List.length_singleton]
  exact Nat.succ_le_succ_iff

variable (miningAddress) in
theorem mineTurn_of_valid
    (hverified : verified crypto miner.chain (readPool choices miner) =
      some (validPool crypto choices miner))
    (hvalid : validPool crypto choices miner ≠ []) :
    mineTurn crypto miningAddress choices miner =
      (mineBlock crypto (choices miner).timestamp miner.chain
        (turnBlock crypto miningAddress choices miner)).bind fun chain =>
          (UTXOSet.write UTXOSet.cleared (findUTXO chain)).bind fun _ =>
            let mempool := (turnBlock crypto miningAddress choices miner).foldl
              Mempool.delete miner.mempool
            if 0 < mempool.txs.keys.length then
              some (.next (validPool crypto choices miner) ⟨chain, mempool⟩)
            else some (.last (validPool crypto choices miner) ⟨chain, mempool⟩) := by
  unfold mineTurn
  rw [hverified]
  exact if_neg hvalid

variable (crypto miningAddress choices miner) in
/-- What each outcome of a turn says. -/
def TurnSpec : Option (Turn Miner (List Transaction)) → Prop
  | none => ¬ TurnFits crypto miningAddress choices miner
  | some .stop => validPool crypto choices miner = [] ∧
      ∀ id tx, miner.mempool.lookup id = some tx → Checkable crypto miner.chain tx
  | some (.next txs miner') => Mines crypto miningAddress choices miner txs miner'
  | some (.last txs miner') => Mines crypto miningAddress choices miner txs miner' ∧
      miner'.mempool.txs.keys = []

theorem mineTurn_spec_of_valid (hchain : miner.chain ≠ [])
    (hverified : verified crypto miner.chain (readPool choices miner) =
      some (validPool crypto choices miner))
    (hvalid : validPool crypto choices miner ≠ []) :
    TurnSpec crypto miningAddress choices miner
      (mineTurn crypto miningAddress choices miner) := by
  have hblock := mineBlock_turnBlock_isSome crypto miningAddress choices hchain
  rw [mineTurn_of_valid miningAddress hverified hvalid]
  cases hmine : mineBlock crypto (choices miner).timestamp miner.chain
      (turnBlock crypto miningAddress choices miner) with
  | none =>
      rw [hmine] at hblock
      intro hfits
      exact Bool.false_ne_true (hblock.mpr hfits.few)
  | some chain =>
      rw [hmine] at hblock
      obtain ⟨_, block, htxs, rfl⟩ := mineBlock_eq_some hmine
      have hwrite := write_isSome_iff miner.chain block
      rw [htxs] at hwrite
      rw [Option.bind_some]
      cases hstored : UTXOSet.write UTXOSet.cleared (findUTXO (block :: miner.chain)) with
      | none =>
          rw [hstored] at hwrite
          intro hfits
          exact Bool.false_ne_true (hwrite.mpr (hfits.storing hvalid))
      | some bucket =>
          rw [hstored] at hwrite
          have hcheckable := (verified_readPool_isSome crypto choices miner).mp
            (Option.isSome_of_eq_some hverified)
          have hmines : ∀ mempool, mempool = (turnBlock crypto miningAddress choices miner).foldl
              Mempool.delete miner.mempool →
                Mines crypto miningAddress choices miner (validPool crypto choices miner)
                  ⟨block :: miner.chain, mempool⟩ := fun mempool hmempool =>
            ⟨rfl, hvalid, hcheckable, hblock.mp rfl, hwrite.mp rfl, ⟨block, htxs, rfl⟩, hmempool⟩
          rw [Option.bind_some]
          dsimp only
          split
          · exact hmines _ rfl
          · rename_i hempty
            exact ⟨hmines _ rfl, List.eq_nil_of_length_eq_zero (Nat.eq_zero_of_not_pos hempty)⟩

variable (crypto miningAddress choices) in
theorem mineTurn_spec (hchain : miner.chain ≠ []) :
    TurnSpec crypto miningAddress choices miner
      (mineTurn crypto miningAddress choices miner) := by
  cases hverified : verified crypto miner.chain (readPool choices miner) with
  | none =>
      have hturn : mineTurn crypto miningAddress choices miner = none := by
        simp [mineTurn, hverified]
      rw [hturn]
      intro hfits
      have hsome := (verified_readPool_isSome crypto choices miner).mpr hfits.checkable
      rw [hverified] at hsome
      cases hsome
  | some txs =>
      obtain rfl : txs = validPool crypto choices miner := verified_eq_filter hverified
      by_cases hvalid : validPool crypto choices miner = []
      · have hturn : mineTurn crypto miningAddress choices miner = some .stop := by
          simp [mineTurn, hverified, hvalid]
        rw [hturn]
        exact ⟨hvalid, (verified_readPool_isSome crypto choices miner).mp
          (Option.isSome_of_eq_some hverified)⟩
      · exact mineTurn_spec_of_valid hchain hverified hvalid

theorem mines_of_next (hchain : miner.chain ≠ [])
    (hturn : mineTurn crypto miningAddress choices miner = some (.next txs miner')) :
    Mines crypto miningAddress choices miner txs miner' := by
  have hspec := mineTurn_spec crypto miningAddress choices hchain
  rwa [hturn] at hspec

theorem mines_of_last (hchain : miner.chain ≠ [])
    (hturn : mineTurn crypto miningAddress choices miner = some (.last txs miner')) :
    Mines crypto miningAddress choices miner txs miner' ∧ miner'.mempool.txs.keys = [] := by
  have hspec := mineTurn_spec crypto miningAddress choices hchain
  rwa [hturn] at hspec

theorem not_fits_of_panic (hchain : miner.chain ≠ [])
    (hturn : mineTurn crypto miningAddress choices miner = none) :
    ¬ TurnFits crypto miningAddress choices miner := by
  have hspec := mineTurn_spec crypto miningAddress choices hchain
  rwa [hturn] at hspec

theorem stop_spec (hchain : miner.chain ≠ [])
    (hturn : mineTurn crypto miningAddress choices miner = some .stop) :
    validPool crypto choices miner = [] ∧
      ∀ id tx, miner.mempool.lookup id = some tx → Checkable crypto miner.chain tx := by
  have hspec := mineTurn_spec crypto miningAddress choices hchain
  rwa [hturn] at hspec

end Turn

/-! What the loop should do, and what it does. -/

section Right

variable (crypto) (miningAddress : Bytes)

/-- Each block is mined over the chain before it, of valid transactions and a coinbase. -/
inductive Grows : Chain → List (List Transaction) → Chain → Prop
  | nil {chain : Chain} : Grows chain [] chain
  | cons {chain final : Chain} {txs : List Transaction} {rest : List (List Transaction)}
      {block : Block} {randData : Bytes}
      (hvalid : ∀ tx ∈ txs, verifyTransaction crypto chain tx = some true)
      (hblock : block.transactions =
        txs ++ [newCoinbaseTX crypto miningAddress "" randData])
      (hrest : Grows (block :: chain) rest final) : Grows chain (txs :: rest) final

/-- The blocks hold transactions of the mempool, each at most once, and only invalid ones
are left. -/
structure MinesValid (miner : Miner) (blocks : List (List Transaction)) (final : Miner) :
    Prop where
  fromPool : ∀ tx ∈ blocks.flatten, miner.mempool.lookup tx.id = some tx
  once : (blocks.flatten.map (·.id)).Nodup
  grows : Grows crypto miningAddress miner.chain blocks final.chain
  left : ∀ id tx, final.mempool.lookup id = some tx →
    verifyTransaction crypto final.chain tx = some false

/-- Exactly what is mined leaves the mempool. -/
structure MinesRight (miner : Miner) (blocks : List (List Transaction)) (final : Miner) :
    Prop extends MinesValid crypto miningAddress miner blocks final where
  removed : ∀ id, final.mempool.lookup id =
    if id ∈ blocks.flatten.map (·.id) then none else miner.mempool.lookup id

end Right

section Run

variable {miningAddress : Bytes} {choices : (miner : Miner) → TurnChoice miner}
  {miner miner' final : Miner} {txs : List Transaction} {rest blocks : List (List Transaction)}

/-- Without a block, all that the mempool holds has to be invalid. -/
theorem minesValid_nil (hleft : ∀ id tx, miner.mempool.lookup id = some tx →
    verifyTransaction crypto miner.chain tx = some false) :
    MinesValid crypto miningAddress miner [] miner where
  fromPool := fun _ hmem => absurd hmem List.not_mem_nil
  once := List.nodup_nil
  grows := .nil
  left := hleft

theorem minesValid_empty (hempty : miner.mempool.txs.keys = []) :
    MinesValid crypto miningAddress miner [] miner := by
  refine minesValid_nil ?_
  intro id tx hlookup
  rw [Mempool.lookup_of_keys_eq_nil hempty] at hlookup
  cases hlookup

/-- Where nothing is valid and all is checkable, all is invalid. -/
theorem minesValid_stop (hchain : miner.chain ≠ [])
    (hturn : mineTurn crypto miningAddress choices miner = some .stop) :
    MinesValid crypto miningAddress miner [] miner := by
  refine minesValid_nil ?_
  intro id tx hlookup
  obtain ⟨hvalid, hcheckable⟩ := stop_spec hchain hturn
  obtain ⟨valid, hverify⟩ := Option.isSome_iff_exists.mp
    (verifyTransaction_isSome_iff.mpr (hcheckable id tx hlookup))
  cases valid with
  | false => exact hverify
  | true =>
      obtain rfl := miner.mempool.keyed id tx hlookup
      have hmem : tx ∈ validPool crypto choices miner :=
        mem_validPool.mpr ⟨hlookup, hverify⟩
      rw [hvalid] at hmem
      cases hmem

namespace Mines

variable (h : Mines crypto miningAddress choices miner txs miner')

include h

theorem chain_ne_nil : miner'.chain ≠ [] := by
  obtain ⟨block, _, htip⟩ := h.tip
  rw [htip]
  exact List.cons_ne_nil _ _

theorem lookup (id : Bytes) : miner'.mempool.lookup id =
    if id ∈ txs.map (·.id) ∨ id = (turnCoinbase crypto miningAddress choices miner).id then none
    else miner.mempool.lookup id := by
  rw [h.deletes, Mempool.lookup_deletes, turnBlock, ← h.valid]
  simp only [List.map_append, List.map_cons, List.map_nil, List.mem_append,
    List.mem_singleton]

theorem lookup_eq_some {id : Bytes} (hlookup : miner'.mempool.lookup id = some tx) :
    miner.mempool.lookup id = some tx ∧ id ∉ txs.map (·.id) := by
  rw [h.lookup] at hlookup
  split at hlookup
  · cases hlookup
  · rename_i hkept
    exact ⟨hlookup, fun hmem => hkept (.inl hmem)⟩

theorem lookup_cases (id : Bytes) : miner'.mempool.lookup id = none ∨
    miner'.mempool.lookup id = miner.mempool.lookup id := by
  rw [h.lookup]
  split
  · exact .inl rfl
  · exact .inr rfl

theorem mem_iff : tx ∈ txs ↔ miner.mempool.lookup tx.id = some tx ∧
    verifyTransaction crypto miner.chain tx = some true := by
  rw [h.valid, mem_validPool]

theorem not_mem_of_invalid {id : Bytes} (hlookup : miner.mempool.lookup id = some tx)
    (hinvalid : verifyTransaction crypto miner.chain tx ≠ some true) :
    id ∉ txs.map (·.id) := by
  intro hmem
  obtain ⟨other, hother, rfl⟩ := List.mem_map.mp hmem
  obtain ⟨hsame, hvalid⟩ := h.mem_iff.mp hother
  obtain rfl := Option.some.inj (hsame.symm.trans hlookup)
  exact hinvalid hvalid

theorem nodup : (txs.map (·.id)).Nodup := by
  rw [h.valid]
  exact nodup_readPool.sublist (List.filter_sublist.map _)

theorem length_lt : miner'.mempool.txs.keys.length < miner.mempool.txs.keys.length := by
  have hne := h.nonempty
  have hfirst : ∀ tx ∈ txs, miner.mempool.lookup tx.id = some tx :=
    fun tx htx => (h.mem_iff.mp htx).1
  rw [h.deletes, turnBlock, ← h.valid]
  cases txs with
  | nil => exact absurd rfl hne
  | cons tx txs =>
      rw [List.cons_append, List.foldl_cons]
      exact Nat.lt_of_le_of_lt (Mempool.length_deletes_le _ _)
        (Mempool.length_delete_lt (hfirst tx List.mem_cons_self))

theorem grows (hrest : Grows crypto miningAddress miner'.chain rest chain) :
    Grows crypto miningAddress miner.chain (txs :: rest) chain := by
  obtain ⟨block, htxs, htip⟩ := h.tip
  rw [htip] at hrest
  rw [turnBlock, ← h.valid] at htxs
  exact .cons (fun tx htx => (h.mem_iff.mp htx).2) htxs hrest

/-- In a turn that mines, only the ID of the coinbase is left to ask about. -/
theorem fits_iff : TurnFits crypto miningAddress choices miner ↔
    ∀ id tx, miner.mempool.lookup id = some tx →
      verifyTransaction crypto miner.chain tx ≠ some true →
        id ≠ (turnCoinbase crypto miningAddress choices miner).id := by
  have hvalid := h.nonempty
  have hfew := h.few
  rw [h.valid] at hvalid hfew
  constructor
  · intro hfits
    exact hfits.apart hvalid
  · intro hapart
    exact ⟨h.checkable, hfew, fun _ => h.storing, fun _ => hapart⟩

/-- A block more, before those that are valid for what it leaves. -/
theorem minesValid (hrest : MinesValid crypto miningAddress miner' rest final) :
    MinesValid crypto miningAddress miner (txs :: rest) final where
  fromPool := by
    intro tx hmem
    rw [List.flatten_cons, List.mem_append] at hmem
    rcases hmem with hmem | hmem
    · exact (h.mem_iff.mp hmem).1
    · exact (h.lookup_eq_some (hrest.fromPool tx hmem)).1
  once := by
    rw [List.flatten_cons, List.map_append, List.nodup_append']
    refine ⟨h.nodup, hrest.once, ?_⟩
    intro id htxs hlater
    obtain ⟨tx, hmem, rfl⟩ := List.mem_map.mp hlater
    exact (h.lookup_eq_some (hrest.fromPool tx hmem)).2 htxs
  grows := h.grows hrest.grows
  left := hrest.left

section Removed

variable (hfrom : ∀ tx ∈ rest.flatten, miner'.mempool.lookup tx.id = some tx)
  (hshrinks : ∀ id, final.mempool.lookup id = none ∨
    final.mempool.lookup id = miner'.mempool.lookup id)

include hfrom hshrinks in
/-- A transaction under the ID of the coinbase would go without being mined. -/
theorem apart_of_removed
    (hremoved : ∀ id, final.mempool.lookup id =
      if id ∈ txs.map (·.id) ∨ id ∈ rest.flatten.map (·.id) then none
      else miner.mempool.lookup id) {id : Bytes}
    (hlookup : miner.mempool.lookup id = some tx)
    (hinvalid : verifyTransaction crypto miner.chain tx ≠ some true) :
    id ≠ (turnCoinbase crypto miningAddress choices miner).id := by
  rintro rfl
  have hdeleted := h.lookup (turnCoinbase crypto miningAddress choices miner).id
  rw [if_pos (.inr rfl)] at hdeleted
  have hgone := hremoved (turnCoinbase crypto miningAddress choices miner).id
  rw [(hshrinks _).elim id fun hsame => hsame.trans hdeleted] at hgone
  split at hgone
  · rename_i hmined
    rcases hmined with hmined | hmined
    · exact h.not_mem_of_invalid hlookup hinvalid hmined
    · obtain ⟨other, hother, hid⟩ := List.mem_map.mp hmined
      have hkept := hfrom other hother
      rw [hid, hdeleted] at hkept
      cases hkept
  · rw [hlookup] at hgone
    cases hgone

include hshrinks in
theorem rest_removed
    (hremoved : ∀ id, final.mempool.lookup id =
      if id ∈ txs.map (·.id) ∨ id ∈ rest.flatten.map (·.id) then none
      else miner.mempool.lookup id) (id : Bytes) :
    final.mempool.lookup id =
      if id ∈ rest.flatten.map (·.id) then none else miner'.mempool.lookup id := by
  by_cases hrest : id ∈ rest.flatten.map (·.id)
  · rw [hremoved id, if_pos (.inr hrest), if_pos hrest]
  · rw [if_neg hrest, h.lookup]
    split
    · rename_i hdeleted
      rcases hshrinks id with hnone | hsame
      · exact hnone
      · rw [hsame, h.lookup, if_pos hdeleted]
    · rename_i hkept
      have hunmined : ¬ (id ∈ txs.map (·.id) ∨ id ∈ rest.flatten.map (·.id)) :=
        not_or.mpr ⟨fun htxs => hkept (.inl htxs), hrest⟩
      rw [hremoved id, if_neg hunmined]

theorem removed_of_rest
    (hapart : ∀ id tx, miner.mempool.lookup id = some tx →
      verifyTransaction crypto miner.chain tx ≠ some true →
        id ≠ (turnCoinbase crypto miningAddress choices miner).id)
    (hremoved : ∀ id, final.mempool.lookup id =
      if id ∈ rest.flatten.map (·.id) then none else miner'.mempool.lookup id) (id : Bytes) :
    final.mempool.lookup id =
      if id ∈ txs.map (·.id) ∨ id ∈ rest.flatten.map (·.id) then none
      else miner.mempool.lookup id := by
  rw [hremoved id, h.lookup]
  by_cases hrest : id ∈ rest.flatten.map (·.id)
  · rw [if_pos hrest, if_pos (.inr hrest)]
  · by_cases htxs : id ∈ txs.map (·.id)
    · rw [if_neg hrest, if_pos (.inl htxs), if_pos (.inl htxs)]
    · have hunmined : ¬ (id ∈ txs.map (·.id) ∨ id ∈ rest.flatten.map (·.id)) :=
        not_or.mpr ⟨htxs, hrest⟩
      rw [if_neg hrest, if_neg hunmined]
      split
      · rename_i hdeleted
        have hcoinbase := hdeleted.resolve_left htxs
        cases hlookup : miner.mempool.lookup id with
        | none => rfl
        | some tx =>
            refine absurd hcoinbase (hapart id tx hlookup fun hvalid => htxs ?_)
            obtain rfl := miner.mempool.keyed id tx hlookup
            exact List.mem_map_of_mem (h.mem_iff.mpr ⟨hlookup, hvalid⟩)
      · rfl

include hfrom hshrinks in
/-- The removals are right exactly when the turn fits and those of the rest are right. -/
theorem removed_iff :
    (∀ id, final.mempool.lookup id =
        if id ∈ (txs :: rest).flatten.map (·.id) then none else miner.mempool.lookup id) ↔
      TurnFits crypto miningAddress choices miner ∧
        ∀ id, final.mempool.lookup id =
          if id ∈ rest.flatten.map (·.id) then none else miner'.mempool.lookup id := by
  rw [h.fits_iff]
  simp only [List.flatten_cons, List.map_append, List.mem_append]
  constructor
  · intro hremoved
    refine ⟨?_, h.rest_removed hshrinks hremoved⟩
    intro id tx hlookup hinvalid
    exact h.apart_of_removed hfrom hshrinks hremoved hlookup hinvalid
  · rintro ⟨hapart, hremoved⟩
    exact h.removed_of_rest hapart hremoved

end Removed

end Mines

/-- The loop only deletes. -/
theorem returns_lookup
    (hreturns : Returns (mineTurn crypto miningAddress choices) miner blocks final)
    (hchain : miner.chain ≠ []) (id : Bytes) :
    final.mempool.lookup id = none ∨ final.mempool.lookup id = miner.mempool.lookup id := by
  induction hreturns with
  | stop hturn => exact .inr rfl
  | last hturn => exact (mines_of_last hchain hturn).1.lookup_cases id
  | next hturn hrest ih =>
      have hmines := mines_of_next hchain hturn
      rcases ih hmines.chain_ne_nil with hnone | hsame
      · exact .inl hnone
      · rw [hsame]
        exact hmines.lookup_cases id

theorem minesValid_of_returns
    (hreturns : Returns (mineTurn crypto miningAddress choices) miner blocks final)
    (hchain : miner.chain ≠ []) : MinesValid crypto miningAddress miner blocks final := by
  induction hreturns with
  | stop hturn => exact minesValid_stop hchain hturn
  | last hturn =>
      obtain ⟨hmines, hempty⟩ := mines_of_last hchain hturn
      exact hmines.minesValid (minesValid_empty hempty)
  | next hturn hrest ih =>
      have hmines := mines_of_next hchain hturn
      exact hmines.minesValid (ih hmines.chain_ne_nil)

theorem fits_of_stop (hchain : miner.chain ≠ [])
    (hturn : mineTurn crypto miningAddress choices miner = some .stop) :
    TurnFits crypto miningAddress choices miner := by
  obtain ⟨hvalid, hcheckable⟩ := stop_spec hchain hturn
  refine ⟨hcheckable, ?_, fun hne => absurd hvalid hne, fun hne => absurd hvalid hne⟩
  rw [hvalid]
  exact Nat.zero_le _

/-- For a loop that returns, only what is removed is left to ask about. -/
theorem minesRight_iff
    (hreturns : Returns (mineTurn crypto miningAddress choices) miner blocks final)
    (hchain : miner.chain ≠ []) :
    MinesRight crypto miningAddress miner blocks final ↔ ∀ id, final.mempool.lookup id =
      if id ∈ blocks.flatten.map (·.id) then none else miner.mempool.lookup id := by
  constructor
  · intro hright
    exact hright.removed
  · intro hremoved
    exact ⟨minesValid_of_returns hreturns hchain, hremoved⟩

theorem minesRight_next (hchain : miner.chain ≠ [])
    (hturn : mineTurn crypto miningAddress choices miner = some (.next txs miner'))
    (hrest : Returns (mineTurn crypto miningAddress choices) miner' rest final) :
    MinesRight crypto miningAddress miner (txs :: rest) final ↔
      TurnFits crypto miningAddress choices miner ∧
        MinesRight crypto miningAddress miner' rest final := by
  have hmines := mines_of_next hchain hturn
  have hchain' := hmines.chain_ne_nil
  rw [minesRight_iff (.next hturn hrest) hchain, minesRight_iff hrest hchain']
  exact hmines.removed_iff (minesValid_of_returns hrest hchain').fromPool
    (returns_lookup hrest hchain')

theorem minesRight_last (hchain : miner.chain ≠ [])
    (hturn : mineTurn crypto miningAddress choices miner = some (.last txs miner')) :
    MinesRight crypto miningAddress miner [txs] miner' ↔
      TurnFits crypto miningAddress choices miner := by
  have hmines := (mines_of_last hchain hturn).1
  have hfrom : ∀ tx ∈ ([] : List (List Transaction)).flatten,
      miner'.mempool.lookup tx.id = some tx := fun _ hmem => absurd hmem List.not_mem_nil
  rw [minesRight_iff (.last hturn) hchain, hmines.removed_iff hfrom fun _ => .inr rfl]
  exact and_iff_left fun _ => rfl

theorem minesRight_stop (hchain : miner.chain ≠ [])
    (hturn : mineTurn crypto miningAddress choices miner = some .stop) :
    MinesRight crypto miningAddress miner [] miner ↔
      TurnFits crypto miningAddress choices miner :=
  iff_of_true ⟨minesValid_stop hchain hturn, fun _ => rfl⟩ (fits_of_stop hchain hturn)

end Run

/-- The loop returns, and has done what it should. -/
def LoopRight (crypto : Crypto) (miningAddress : Bytes)
    (choices : (miner : Miner) → TurnChoice miner) (miner : Miner) : Prop :=
  ∃ fuel blocks final,
    mineTransactions crypto miningAddress choices fuel miner = .returned blocks final ∧
      MinesRight crypto miningAddress miner blocks final

/-- The loop is right exactly when every turn that it comes to fits; a loop that returns is
a run of the node. -/
theorem mining_right_iff {miningAddress : Bytes}
    {choices : (miner : Miner) → TurnChoice miner} {miner : Miner} (hchain : miner.chain ≠ []) :
    (LoopRight crypto miningAddress choices miner ↔
      ∀ miner', Relation.ReflTransGen (GoesOn (mineTurn crypto miningAddress choices))
        miner miner' → TurnFits crypto miningAddress choices miner') ∧
      ∀ central fuel blocks final,
        mineTransactions crypto miningAddress choices fuel miner = .returned blocks final →
          ∃ actions, Lib.exec (Node.step crypto ⟨central, some miningAddress⟩)
            (miner.node true) actions = some (final.node false) := by
  refine ⟨?_, fun central fuel blocks final hloop =>
    exec_of_returns central (Lib.returns_of_loop hloop)⟩
  have hreturns : LoopRight crypto miningAddress choices miner ↔ ∃ blocks final,
      Returns (mineTurn crypto miningAddress choices) miner blocks final ∧
        MinesRight crypto miningAddress miner blocks final := by
    simp only [LoopRight, mineTransactions, ← Lib.loop_returned_iff, ← exists_and_right]
    rw [exists_comm]
    exact exists_congr fun blocks => exists_comm
  rw [hreturns]
  refine Lib.exists_returns_iff (fun miner => miner.mempool.txs.keys.length)
    (fun h hturn => (mines_of_next h hturn).chain_ne_nil)
    (fun h hturn => (mines_of_next h hturn).length_lt) not_fits_of_panic minesRight_stop
    minesRight_last minesRight_next hchain

section Example

def noMempool : Mempool :=
  ⟨∅, fun _ _ hlookup => by cases hlookup⟩

/-- The last transaction that came is read first. -/
def latestFirst (miner : Miner) : TurnChoice miner :=
  ⟨miner.mempool.txs.keys, 1, [1], .refl _⟩

/-- The signature of the first input was not made with the key in it. -/
def forged : Transaction :=
  ⟨[3], [⟨[69], 0, [5, 6], [5, 5]⟩], [⟨10, [8]⟩]⟩

def payingMiner : Miner :=
  ⟨minerGenesis, (noMempool.insert (payment [1] [69])).insert forged⟩

/-- The payment is mined, and the loop ends at the forged one. -/
theorem payingMiner_turns : ∃ txs later,
    mineTurn minerCrypto [7] latestFirst payingMiner = some (.next txs later) ∧
      mineTurn minerCrypto [7] latestFirst later = some .stop := by
  have hturns : (((mineTurn minerCrypto [7] latestFirst payingMiner).bind Turn.target).bind
      (mineTurn minerCrypto [7] latestFirst)).map Turn.isStop = some true := by
    decide +kernel
  obtain ⟨turn, hturn, hstop⟩ := Option.map_eq_some_iff.mp hturns
  obtain ⟨later, hlater, hturn⟩ := Option.bind_eq_some_iff.mp hturn
  obtain ⟨txs, hnext⟩ := (Lib.goesOn_iff _).mpr hlater
  rw [Turn.isStop_iff.mp hstop] at hturn
  exact ⟨txs, later, hnext, hturn⟩

theorem mining_right_payment : LoopRight minerCrypto [7] latestFirst payingMiner := by
  obtain ⟨txs, later, hnext, hstop⟩ := payingMiner_turns
  have hchain : payingMiner.chain ≠ [] := by decide +kernel
  have hmines := mines_of_next hchain hnext
  have hfits : TurnFits minerCrypto [7] latestFirst payingMiner := by
    refine hmines.fits_iff.mpr ?_
    rintro id tx hlookup _ rfl
    have hnone : payingMiner.mempool.lookup
        (turnCoinbase minerCrypto [7] latestFirst payingMiner).id = none := by
      decide +kernel
    rw [hnone] at hlookup
    cases hlookup
  refine (mining_right_iff hchain).1.mpr ((Lib.forall_reached_of_next hnext).mpr ⟨hfits, ?_⟩)
  refine (Lib.forall_reached_of_ends ?_).mpr (fits_of_stop hmines.chain_ne_nil hstop)
  rintro next ⟨record, hgoes⟩
  cases hstop.symm.trans hgoes

def strayMiner : Miner :=
  ⟨minerGenesis, (noMempool.insert (payment [1] [69])).insert (payment [3] [4])⟩

theorem unknown_input_panics : ¬ ∀ (crypto : Crypto) (miningAddress : Bytes)
    (choices : (miner : Miner) → TurnChoice miner) (miner : Miner), miner.chain ≠ [] →
      LoopRight crypto miningAddress choices miner := by
  intro h
  obtain ⟨fuel, blocks, final, hloop, _⟩ := h minerCrypto [7] latestFirst strayMiner
    (by decide +kernel)
  have hpanics : (mineTurn minerCrypto [7] latestFirst strayMiner).isNone := by
    decide +kernel
  exact Lib.not_returns_of_none (Option.isNone_iff_eq_none.mp hpanics)
    (Lib.returns_of_loop hloop)

end Example

end BlockchainTutorial.Bitcoin
