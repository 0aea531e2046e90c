import Mathlib.Data.List.Sort
import BlockchainTutorial.Lib.Run
import BlockchainTutorial.Bitcoin.Amounts
import BlockchainTutorial.Bitcoin.Blockchain

namespace BlockchainTutorial.Bitcoin

/-! `cli_createblockchain.go`, `cli_send.go` with the flag `-mine`, and what they use of
`utxo_set.go` and `transaction.go`. The public key hash of an address stands for the
address. -/

/-- `bytes.Compare(a, b) <= 0`, the order of the keys of a bucket. -/
def notAfter : Bytes → Bytes → Bool
  | [], _ => true
  | _ :: _, [] => false
  | a :: as, b :: bs => if a = b then notAfter as bs else decide (a.toNat < b.toNat)

/-- The entries that are in the bucket, as a cursor visits them. -/
def cursor (bucket : Bucket) : List (Bytes × List TXOutput) :=
  (bucket.written.entries.filterMap fun entry => entry.2.map (entry.1, ·)).insertionSort
    fun a b => notAfter a.1 b.1 = true

namespace UTXOSet

/-- The loop over the outputs of one entry. -/
def spendable (pubKeyHash : Bytes) (amount : Int) :
    Int → Nat → List TXOutput → Int × List Nat
  | accumulated, _, [] => (accumulated, [])
  | accumulated, outIdx, out :: outs =>
      if out.isLockedWithKey pubKeyHash ∧ accumulated < amount then
        let rest :=
          spendable pubKeyHash amount (addInt accumulated out.value) (outIdx + 1) outs
        (rest.1, outIdx :: rest.2)
      else spendable pubKeyHash amount accumulated (outIdx + 1) outs

/-- The loop over the cursor. An entry without such outputs is not in the map. -/
def findSpendable (pubKeyHash : Bytes) (amount : Int) :
    Int → List (Bytes × List TXOutput) → Int × List (Bytes × List Nat)
  | accumulated, [] => (accumulated, [])
  | accumulated, (txID, outs) :: entries =>
      let found := spendable pubKeyHash amount accumulated 0 outs
      let rest := findSpendable pubKeyHash amount found.1 entries
      (rest.1, if found.2 = [] then rest.2 else (txID, found.2) :: rest.2)

def findSpendableOutputs (bucket : Bucket) (pubKeyHash : Bytes) (amount : Int) :
    Int × List (Bytes × List Nat) :=
  findSpendable pubKeyHash amount 0 (cursor bucket)

end UTXOSet

namespace Transaction

def setSignature (tx : Transaction) (inID : Nat) (signature : Bytes) : Transaction :=
  { tx with vin := tx.vin.modify inID fun vin => { vin with signature } }

/-- The loop of `Sign`: the inputs that are left of the copy, and the transaction. -/
def signInputs (ecdsaSign : Nat → String → Bytes) (prevTXs : Bytes → Option Transaction) :
    Transaction → Nat → List TXInput → Transaction → Option Transaction
  | _, _, [], tx => some tx
  | txCopy, inID, vin :: vins, tx =>
      match outputAt (prevTX prevTXs vin.txid).vout vin.vout with
      | none => none
      | some prevOut =>
          let txCopy := txCopy.setPubKey inID prevOut.pubKeyHash
          let dataToSign := txCopy.sprintf
          signInputs ecdsaSign prevTXs (txCopy.setPubKey inID []) (inID + 1) vins
            (tx.setSignature inID (ecdsaSign inID dataToSign))

def sign (tx : Transaction) (ecdsaSign : Nat → String → Bytes)
    (prevTXs : Bytes → Option Transaction) : Option Transaction :=
  if tx.isCoinbase then some tx
  else if tx.vin.any fun vin => (prevTX prevTXs vin.txid).id = [] then none
  else signInputs ecdsaSign prevTXs tx.trimmedCopy 0 tx.trimmedCopy.vin tx

end Transaction

def signTransaction (chain : Chain) (tx : Transaction) (ecdsaSign : Nat → String → Bytes) :
    Option Transaction :=
  if tx.vin.any fun vin => (findTransaction chain vin.txid).isNone then none
  else tx.sign ecdsaSign fun txid =>
    if tx.vin.any fun vin => vin.txid = txid then findTransaction chain txid else none

/-- The flags of `send`, the wallet of the sender, and what is chosen at random: the order
in which the map of outputs is read, the signatures, and the data of the coinbase. -/
structure SendCommand where
  fromHash : Bytes
  toHash : Bytes
  amount : Int
  publicKey : Bytes
  order : List (Bytes × List Nat)
  ecdsaSign : Nat → String → Bytes
  randData : Bytes
  timestamp : Int

instance : Inhabited SendCommand := ⟨[], [], 0, [], [], fun _ _ => [], [], 0⟩

def inputsOf (publicKey : Bytes) (order : List (Bytes × List Nat)) : List TXInput :=
  order.flatMap fun (txid, outs) => outs.map fun (out : Nat) => ⟨txid, out, [], publicKey⟩

def newUTXOTransaction (crypto : Crypto) (chain : Chain) (bucket : Bucket)
    (cmd : SendCommand) : Option Transaction :=
  let (acc, validOutputs) :=
    UTXOSet.findSpendableOutputs bucket (hashPubKey crypto cmd.publicKey) cmd.amount
  if acc < cmd.amount then none
  else if cmd.order.Perm validOutputs then
    let outputs := newTXOutput cmd.amount cmd.toHash ::
      if acc > cmd.amount then [newTXOutput (subInt acc cmd.amount) cmd.fromHash] else []
    let tx : Transaction := ⟨[], inputsOf cmd.publicKey cmd.order, outputs⟩
    signTransaction chain { tx with id := tx.hash crypto } cmd.ecdsaSign
  else none

/-- The blocks and the chainstate of a node. -/
structure Ledger where
  chain : Chain
  chainstate : Bucket

namespace Ledger

/-- The command `createblockchain`. -/
def create (crypto : Crypto) (timestamp : Int) (pubKeyHash : Bytes) : Option Ledger :=
  (createBlockchain crypto timestamp pubKeyHash).bind fun chain =>
    (reindex chain).map fun chainstate => ⟨chain, chainstate⟩

/-- The command `send -mine`, with the test of the flags. -/
def send (crypto : Crypto) (ledger : Ledger) (cmd : SendCommand) : Option Ledger :=
  if cmd.amount ≤ 0 then none
  else do
    let tx ← newUTXOTransaction crypto ledger.chain ledger.chainstate cmd
    let cbTx := newCoinbaseTX crypto cmd.fromHash "" cmd.randData
    let chain ← mineBlock crypto cmd.timestamp ledger.chain [cbTx, tx]
    let block ← chain.head?
    let chainstate ← UTXOSet.update ledger.chainstate block
    some ⟨chain, chainstate⟩

end Ledger

/-! What is signed, and what a command leaves. -/

/-- The part of a transaction that its ID is the hash of. -/
def Transaction.unsigned (tx : Transaction) : Transaction :=
  ⟨[], tx.vin.map fun vin => { vin with signature := [] }, tx.vout⟩

theorem Transaction.setSignature_unsigned (tx : Transaction) (inID : Nat)
    (signature : Bytes) : (tx.setSignature inID signature).unsigned = tx.unsigned := by
  unfold setSignature unsigned
  congr 1
  apply List.ext_getElem?
  intro j
  rw [List.getElem?_map, List.getElem?_map, List.getElem?_modify]
  by_cases hj : inID = j
  · subst hj
    cases tx.vin[inID]? <;> simp
  · cases tx.vin[j]? <;> simp [hj]

theorem Transaction.signInputs_spec {ecdsaSign : Nat → String → Bytes}
    {prevTXs : Bytes → Option Transaction} {txCopy : Transaction} {inID : Nat}
    {vins : List TXInput} {tx tx' : Transaction}
    (h : signInputs ecdsaSign prevTXs txCopy inID vins tx = some tx') :
    tx'.id = tx.id ∧ tx'.unsigned = tx.unsigned := by
  induction vins generalizing txCopy inID tx with
  | nil =>
      cases h
      exact ⟨rfl, rfl⟩
  | cons vin vins ih =>
      unfold signInputs at h
      split at h
      · cases h
      · obtain ⟨hid, hunsigned⟩ := ih h
        exact ⟨hid, hunsigned.trans (setSignature_unsigned _ _ _)⟩

theorem signTransaction_spec {chain : Chain} {tx tx' : Transaction}
    {ecdsaSign : Nat → String → Bytes} (h : signTransaction chain tx ecdsaSign = some tx') :
    tx'.id = tx.id ∧ tx'.unsigned = tx.unsigned := by
  unfold signTransaction at h
  split at h
  · cases h
  · unfold Transaction.sign at h
    split at h
    · cases h
      exact ⟨rfl, rfl⟩
    · split at h
      · cases h
      · exact Transaction.signInputs_spec h

/-- The outputs that a command makes of what it takes. -/
def outputsOf (acc : Int) (cmd : SendCommand) : List TXOutput :=
  newTXOutput cmd.amount cmd.toHash ::
    if acc > cmd.amount then [newTXOutput (subInt acc cmd.amount) cmd.fromHash] else []

theorem newUTXOTransaction_eq_some {crypto : Crypto} {chain : Chain} {bucket : Bucket}
    {cmd : SendCommand} {tx : Transaction}
    (h : newUTXOTransaction crypto chain bucket cmd = some tx) :
    let found := UTXOSet.findSpendableOutputs bucket (hashPubKey crypto cmd.publicKey)
      cmd.amount
    cmd.amount ≤ found.1 ∧ cmd.order.Perm found.2 ∧
      tx.unsigned = ⟨[], inputsOf cmd.publicKey cmd.order, outputsOf found.1 cmd⟩ := by
  unfold newUTXOTransaction at h
  dsimp only at h
  split at h
  · cases h
  · rename_i henough
    split at h
    · rename_i horder
      refine ⟨Int.not_lt.mp henough, horder, (signTransaction_spec h).2.trans ?_⟩
      unfold Transaction.unsigned inputsOf
      rw [List.map_flatMap]
      simp only [List.map_map, Function.comp_def]
      rfl
    · cases h

theorem Ledger.send_eq_some {crypto : Crypto} {ledger ledger' : Ledger} {cmd : SendCommand}
    (h : ledger.send crypto cmd = some ledger') : 0 < cmd.amount ∧ ∃ tx block,
      newUTXOTransaction crypto ledger.chain ledger.chainstate cmd = some tx ∧
      block.transactions = [newCoinbaseTX crypto cmd.fromHash "" cmd.randData, tx] ∧
      ledger'.chain = block :: ledger.chain ∧
      UTXOSet.update ledger.chainstate block = some ledger'.chainstate := by
  unfold send at h
  split at h
  · cases h
  · rename_i hamount
    obtain ⟨tx, htx, h⟩ := Option.bind_eq_some_iff.mp h
    obtain ⟨chain, hchain, h⟩ := Option.bind_eq_some_iff.mp h
    obtain ⟨_, block, hblock, rfl⟩ := mineBlock_eq_some hchain
    obtain ⟨head, hhead, h⟩ := Option.bind_eq_some_iff.mp h
    obtain rfl := Option.some.inj hhead
    obtain ⟨chainstate, hupdate, h⟩ := Option.bind_eq_some_iff.mp h
    obtain rfl := Option.some.inj h
    exact ⟨Int.not_le.mp hamount, tx, block, htx, hblock, rfl, hupdate⟩

abbrev LedgerRun (crypto : Crypto) (genesis : Ledger) :=
  Lib.Run genesis (Ledger.send crypto)

end BlockchainTutorial.Bitcoin
