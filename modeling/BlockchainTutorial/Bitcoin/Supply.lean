import Mathlib.Algebra.BigOperators.Group.List.Basic
import Mathlib.Algebra.Order.Ring.Int
import BlockchainTutorial.Bitcoin.Authorization
import BlockchainTutorial.Bitcoin.Rebuild
import BlockchainTutorial.Bitcoin.Server

namespace BlockchainTutorial.Bitcoin

/-! The value of the unspent outputs of a chain. -/

def value (outs : List TXOutput) : Int :=
  (outs.map (·.value)).sum

@[simp] theorem value_nil : value [] = 0 := rfl

@[simp] theorem value_cons (out : TXOutput) (outs : List TXOutput) :
    value (out :: outs) = out.value + value outs :=
  List.sum_cons

/-- The total value of what `FindUTXO` returns. -/
def supply (chain : Chain) : Int :=
  (findUTXO chain).total fun _ entry => value (entry.getD [])

def namedValue (chain : Chain) (vin : TXInput) : Int :=
  match (findTransaction chain vin.txid).bind fun tx => outputAt tx.vout vin.vout with
  | some out => out.value
  | none => 0

/-- The rules of a block that `MineBlock` leaves out. -/
structure Lawful (chain : Chain) (txs : List Transaction) : Prop where
  distinct : (txs.map (·.id)).Nodup
  fresh : ∀ tx ∈ txs, tx.id ∉ (transactions chain).map (·.id)
  once : ((inputs txs).map outpoint).Nodup
  unspent : ∀ vin ∈ inputs txs, outpoint vin ∉ (inputs (transactions chain)).map outpoint
  covered : (txs.map fun tx => value tx.vout).sum ≤
    ((inputs txs).map (namedValue chain)).sum + subsidy

instance {chain : Chain} {txs : List Transaction} : Decidable (Lawful chain txs) :=
  decidable_of_iff (_ ∧ _ ∧ _ ∧ _ ∧ _)
    ⟨fun ⟨hdistinct, hfresh, honce, hunspent, hcovered⟩ =>
        ⟨hdistinct, hfresh, honce, hunspent, hcovered⟩,
      fun ⟨hdistinct, hfresh, honce, hunspent, hcovered⟩ =>
        ⟨hdistinct, hfresh, honce, hunspent, hcovered⟩⟩

theorem findTransaction_eq (chain : Chain) (id : Bytes) :
    findTransaction chain id = (transactions chain).find? fun tx => tx.id = id := by
  unfold findTransaction transactions
  rw [List.find?_flatMap]

theorem Valid.findTransaction {chain : Chain} (h : Valid chain) {tx : Transaction}
    (htx : tx ∈ transactions chain) : Bitcoin.findTransaction chain tx.id = some tx := by
  rw [findTransaction_eq]
  cases hfound : (transactions chain).find? fun other => other.id = tx.id with
  | none =>
      have hnone := List.find?_eq_none.mp hfound tx htx
      simp at hnone
  | some other =>
      have hid : other.id = tx.id := by simpa using List.find?_some hfound
      rw [h.unique (List.mem_of_find?_eq_some hfound) htx hid]

theorem supply_eq {chain : Chain} (h : Valid chain) :
    supply chain = ((transactions chain).map fun tx =>
      value (unspent (named (inputs (transactions chain)) tx.id) tx.vout)).sum := by
  unfold supply
  rw [Lib.Mapping.total_eq_sum _ ((transactions chain).map (·.id)) h.distinct
    (findUTXO chain) (fun _ => rfl) fun id hid => findUTXO_get_of_notMem hid, List.map_map]
  congr 1
  refine List.map_congr_left fun tx htx => ?_
  rw [Function.comp_apply, findUTXO_get h htx, UTXOSet.getD_stored]

section Extends

variable {chain : Chain} {txs : List Transaction}

theorem Extends.namedValue_eq (hchain : Valid chain) {tx : Transaction}
    (htx : tx ∈ transactions chain) {vin : TXInput} (hid : vin.txid = tx.id)
    (hnamed : ∃ out, outputAt tx.vout vin.vout = some out) :
    namedValue chain vin = (outputOf tx.vout vin.vout.toNat).value := by
  obtain ⟨out, hout⟩ := hnamed
  rw [namedValue, hid, hchain.findTransaction htx, Option.bind_some, hout,
    (outputAt_eq_some hout).2.2]

/-- A transaction loses the value of the outputs that the block names. -/
theorem Extends.value_unspent (h : Extends chain txs) (hchain : Valid chain)
    {tx : Transaction} (htx : tx ∈ transactions chain) :
    value (Bitcoin.unspent (Bitcoin.named (inputs txs ++ inputs (transactions chain)) tx.id)
          tx.vout) +
        (((inputs txs).filter fun vin => vin.txid = tx.id).map (namedValue chain)).sum =
      value (Bitcoin.unspent (Bitcoin.named (inputs (transactions chain)) tx.id)
        tx.vout) := by
  have hperm := Lib.perm_append_filter
    (Lib.nodup_of_increasing (unspentIndexes_increasing
      (Bitcoin.named (inputs (transactions chain)) tx.id) tx.vout.length))
    (h.nodup_positions hchain htx) (h.positions_subset hchain htx)
  have hsum := (hperm.map fun i => (outputOf tx.vout i).value).sum_eq
  rw [List.map_append, List.sum_append, ← h.unspentIndexes_append hchain htx] at hsum
  have hnamed : ((positions txs tx.id).map fun i => (outputOf tx.vout i).value) =
      ((inputs txs).filter fun vin => vin.txid = tx.id).map (namedValue chain) := by
    rw [positions, Bitcoin.named, List.map_map, List.map_map]
    refine List.map_congr_left fun vin hvin => ?_
    obtain ⟨hvin, hid⟩ := List.mem_filter.mp hvin
    have hid := of_decide_eq_true hid
    obtain ⟨old, hold, holdid, hout⟩ := h.named vin hvin
    obtain rfl := hchain.unique htx hold (hid.symm.trans holdid.symm)
    exact (Extends.namedValue_eq hchain htx hid hout).symm
  rw [hnamed] at hsum
  simp only [value, Bitcoin.unspent, List.map_map, Function.comp_def]
  omega

theorem sum_new (htxs : Extends chain txs) (hchain : Valid chain) :
    (txs.map fun tx => value
      (unspent (named (inputs txs ++ inputs (transactions chain)) tx.id) tx.vout)).sum =
      (txs.map fun tx => value tx.vout).sum := by
  congr 1
  refine List.map_congr_left fun tx htx => ?_
  rw [named_append, htxs.named_new htx, htxs.named_old hchain htx, List.append_nil,
    unspent_nil]

/-- A block changes the supply by its outputs less those that it names. -/
theorem supply_cons {block : Block} (hvalid : Valid (block :: chain)) :
    supply (block :: chain) +
        ((inputs block.transactions).map (namedValue chain)).sum =
      supply chain + (block.transactions.map fun tx => value tx.vout).sum := by
  have ⟨hchain, hblock⟩ := hvalid
  have hkeys := Lib.sum_filter_key hchain.distinct (·.txid) (namedValue chain)
    (inputs block.transactions) fun vin hvin => by
      obtain ⟨tx, htx, hid, _⟩ := hblock.named vin hvin
      exact List.mem_map.mpr ⟨tx, htx, hid⟩
  have hold : ((transactions chain).map fun tx => value (unspent
        (named (inputs block.transactions ++ inputs (transactions chain)) tx.id) tx.vout)).sum +
      ((inputs block.transactions).map (namedValue chain)).sum = supply chain := by
    rw [← hkeys, List.map_map, ← List.sum_map_add, supply_eq hchain]
    congr 1
    exact List.map_congr_left fun tx htx => hblock.value_unspent hchain htx
  rw [supply_eq hvalid, transactions_cons, inputs_append, List.map_append,
    List.sum_append, sum_new hblock hchain]
  omega

end Extends

/-! Chains that grow by lawful blocks. -/

/-- No output is named twice, and no more is unspent than the subsidies of the blocks. -/
def Conserved (chain : Chain) : Prop :=
  ((inputs (transactions chain)).map outpoint).Nodup ∧
    supply chain ≤ subsidy * chain.length

section Conserved

variable {crypto : Crypto} {chain chain' : Chain} {txs : List Transaction}

theorem findTransaction_id {tx : Transaction} {id : Bytes}
    (h : findTransaction chain id = some tx) : tx.id = id := by
  rw [findTransaction_eq] at h
  have hid := List.find?_some h
  exact of_decide_eq_true hid

theorem named_of_verified {tx : Transaction}
    (h : verifyTransaction crypto chain tx = some true) :
    ∀ vin ∈ tx.spends, ∃ prevTx ∈ transactions chain, prevTx.id = vin.txid ∧
      ∃ out, outputAt prevTx.vout vin.vout = some out := by
  intro vin hvin
  unfold Transaction.spends at hvin
  split at hvin
  · cases hvin
  · rename_i hcoinbase
    have hcoinbase := Bool.eq_false_iff.mpr hcoinbase
    have hfound := found_of_verifyTransaction hcoinbase (Option.isSome_of_eq_some h)
    rw [verifyTransaction_of_found hcoinbase hfound] at h
    obtain ⟨i, hi⟩ := List.mem_iff_getElem?.mp hvin
    obtain ⟨out, hout, _⟩ := (Transaction.verify_eq_true hcoinbase).mp h i vin hi
    obtain ⟨prevTx, hprevTx⟩ := Option.isSome_iff_exists.mp (hfound vin hvin)
    rw [namedOutput, prevTX_prevTXsOf hvin hprevTx] at hout
    split at hout
    · cases hout
    · have hid := findTransaction_id hprevTx
      rw [findTransaction_eq] at hprevTx
      exact ⟨prevTx, List.mem_of_find?_eq_some hprevTx, hid, out, hout⟩

theorem Lawful.extends (h : Lawful chain txs)
    (hverified : ∀ tx ∈ txs, verifyTransaction crypto chain tx = some true) :
    Extends chain txs where
  distinct := h.distinct
  fresh := h.fresh
  named := by
    intro vin hvin
    obtain ⟨tx, htx, hvin⟩ := List.mem_flatMap.mp hvin
    exact named_of_verified (hverified tx htx) vin hvin
  once := h.once
  unspent := h.unspent

structure Sound (chain : Chain) : Prop where
  valid : Valid chain
  bounded : supply chain ≤ subsidy * chain.length

theorem Sound.conserved (h : Sound chain) : Conserved chain :=
  ⟨h.valid.once, h.bounded⟩

theorem Sound.cons (h : Sound chain) {block : Block}
    (hextends : Extends chain block.transactions) (hlawful : Lawful chain block.transactions) :
    Sound (block :: chain) := by
  have hvalid : Valid (block :: chain) := ⟨h.valid, hextends⟩
  have hsupply := supply_cons hvalid
  have hcovered := hlawful.covered
  have hbounded := h.bounded
  refine ⟨hvalid, ?_⟩
  rw [List.length_cons, Int.natCast_succ, Int.mul_add, Int.mul_one]
  omega

theorem Sound.mineBlock (h : Sound chain) (hlawful : Lawful chain txs) {timestamp : Int}
    (hmine : Bitcoin.mineBlock crypto timestamp chain txs = some chain') : Sound chain' := by
  obtain ⟨hverified, block, rfl, rfl⟩ := mineBlock_eq_some hmine
  exact h.cons (hlawful.extends hverified) hlawful

theorem sound_nil : Sound [] :=
  ⟨trivial, by decide⟩

theorem lawful_coinbase {coinbase : Transaction} (hcoinbase : coinbase.isCoinbase = true)
    (hvalue : value coinbase.vout ≤ subsidy) : Lawful [] [coinbase] := by
  have hinputs : inputs [coinbase] = [] := by
    simp [inputs, Transaction.spends, hcoinbase]
  exact {
    distinct := List.nodup_singleton _
    fresh := by simp [transactions]
    once := by simp [hinputs]
    unspent := by simp [hinputs]
    covered := by simpa [hinputs] using hvalue }

theorem sound_createBlockchain {timestamp : Int} {pubKeyHash : Bytes}
    (h : createBlockchain crypto timestamp pubKeyHash = some chain) : Sound chain := by
  obtain ⟨block, hblock, rfl⟩ := Option.map_eq_some_iff.mp h
  have hcoinbase : (newCoinbaseTX crypto pubKeyHash
      "The Times 03/Jan/2009 Chancellor on brink of second bailout for banks" []).isCoinbase =
      true := by
    simp [newCoinbaseTX, Transaction.isCoinbase]
  have hlawful := lawful_coinbase hcoinbase (by simp [newCoinbaseTX, newTXOutput, value])
  have hverified : ∀ tx ∈ block.transactions, verifyTransaction crypto [] tx = some true := by
    intro tx htx
    rw [transactions_of_newBlock hblock, List.mem_singleton] at htx
    rw [htx, verifyTransaction, if_pos hcoinbase]
  rw [← transactions_of_newBlock hblock] at hlawful
  exact sound_nil.cons (hlawful.extends hverified) hlawful

end Conserved

/-! Runs of a node. -/

def Node.mined (crypto : Crypto) (config : Config) (node : Node) :
    NodeAction → Option (List Transaction)
  | .mineBlock _ txs => some txs
  | .handleTx _ => none
  | .mineTransactions order _ randData => do
      let miningAddress ← config.miningAddress
      let txs ← verified crypto node.chain (order.filterMap node.mempool.lookup)
      if txs = [] then none
      else some (txs ++ [newCoinbaseTX crypto miningAddress "" randData])

theorem Node.step_chain {crypto : Crypto} {config : Config} {node node' : Node}
    {action : NodeAction} (h : node.step crypto config action = some node') :
    node'.chain = node.chain ∨ ∃ txs timestamp,
      node.mined crypto config action = some txs ∧
        Bitcoin.mineBlock crypto timestamp node.chain txs = some node'.chain := by
  cases action with
  | mineBlock timestamp txs =>
      obtain ⟨chain, hchain, rfl⟩ := Option.map_eq_some_iff.mp h
      exact .inr ⟨txs, timestamp, rfl, hchain⟩
  | handleTx tx =>
      obtain rfl := Option.some.inj h
      exact .inl rfl
  | mineTransactions order timestamp randData =>
      change node.mineTransactions crypto config order timestamp randData = some node' at h
      unfold Node.mineTransactions at h
      split at h
      · split at h
        · cases h
        · obtain rfl := Option.some.inj h
          exact .inl rfl
        · rename_i tx txs hverified
          obtain ⟨miningAddress, haddress, h⟩ := Option.bind_eq_some_iff.mp h
          obtain ⟨chain, hchain, h⟩ := Option.bind_eq_some_iff.mp h
          obtain rfl := Option.some.inj h
          refine .inr ⟨_, timestamp, ?_, hchain⟩
          simp [Node.mined, haddress, hverified]
      · cases h

def MinesLawfully (crypto : Crypto) (config : Config) (node : Node) (action : NodeAction) :
    Prop :=
  ∀ txs ∈ node.mined crypto config action, Lawful node.chain txs

instance {crypto : Crypto} {config : Config} (node : Node) (action : NodeAction) :
    Decidable (MinesLawfully crypto config node action) :=
  inferInstanceAs (Decidable (∀ txs ∈ node.mined crypto config action, Lawful node.chain txs))

/-- A chain grows from its genesis block without double spends and without value from
nowhere if all the blocks mined are lawful. -/
theorem ledger_conserved {crypto : Crypto} {config : Config} {timestamp : Int}
    {pubKeyHash : Bytes} {genesis : Chain}
    (hgenesis : createBlockchain crypto timestamp pubKeyHash = some genesis)
    (run : NodeRun crypto config genesis)
    (hlawful : run.AllSteps (MinesLawfully crypto config)) :
    ∀ k, k ≤ run.length → Conserved (run.state k).chain := by
  intro k hk
  refine Sound.conserved (run.induct (P := fun k => Sound (run.state k).chain) ?_ ?_ k hk)
  · rw [run.starts]
    exact sound_createBlockchain hgenesis
  · intro k hk ih
    rcases Node.step_chain (run.steps k hk) with hsame | ⟨txs, timestamp, hmined, hmine⟩
    · rwa [hsame]
    · exact ih.mineBlock (hlawful k hk txs hmined) hmine

section Mint

/-! A node with hashes of one byte, the length of what is hashed. -/

def minerCrypto : Crypto where
  sha256 bytes := [UInt8.ofNat bytes.length]
  ripemd160 := id
  ecdsaVerify key _ r s := r = key.x ∧ s = key.y
  serialize tx := tx.vin.flatMap (·.pubKey)

def miner : Config where
  central := false
  miningAddress := some [7]

def minerGenesis : Chain :=
  (createBlockchain minerCrypto 0 [7]).getD []

theorem createBlockchain_miner : createBlockchain minerCrypto 0 [7] = some minerGenesis := by
  decide +kernel

def payment (id txid : Bytes) : Transaction :=
  ⟨id, [⟨txid, 0, [5, 5], [5, 5]⟩], [⟨4, [8]⟩, ⟨6, [7]⟩]⟩

/-- The coinbase transactions have the IDs `45` and `02`. -/
def payments : NodeRun minerCrypto miner minerGenesis :=
  .ofActions [.mineBlock 1 [newCoinbaseTX minerCrypto [7] "" [1]],
    .handleTx (payment [1] [69]), .handleTx (payment [3] [2]),
    .mineTransactions [[1], [3]] 2 [1, 2]] (by decide +kernel)

theorem ledger_conserved_payments : Conserved (payments.state 4).chain :=
  ledger_conserved createBlockchain_miner payments (by decide +kernel) 4 (by decide)

/-- A transaction in the shape of a coinbase transaction, from a peer. -/
def mint (id : Bytes) : Transaction :=
  ⟨id, [⟨[], -1, [], []⟩], [⟨1000, [8]⟩]⟩

def mints : List NodeAction :=
  [.handleTx (mint [1]), .handleTx (mint [2]), .mineTransactions [[1], [2]] 1 [1]]

theorem ledger_not_conserved : ¬ ∀ (crypto : Crypto) (config : Config) (timestamp : Int)
    (pubKeyHash : Bytes) (genesis : Chain),
    createBlockchain crypto timestamp pubKeyHash = some genesis →
    ∀ (run : NodeRun crypto config genesis) (k : Nat), k ≤ run.length →
      Conserved (run.state k).chain := by
  intro h
  have hrun : (Lib.exec (Node.step minerCrypto miner) ⟨minerGenesis, ∅, false⟩ mints).map
      (fun node => (supply node.chain, node.chain.length)) = some (2020, 2) := by
    decide +kernel
  obtain ⟨run, _, hsupply⟩ := Lib.Run.exists_of_exec hrun
  have hbounded := (h _ _ _ _ _ createBlockchain_miner run run.length (Nat.le_refl _)).2
  obtain ⟨hvalue, hlength⟩ := Prod.mk.inj hsupply
  rw [hvalue, hlength] at hbounded
  exact absurd hbounded (by decide)

end Mint

end BlockchainTutorial.Bitcoin
