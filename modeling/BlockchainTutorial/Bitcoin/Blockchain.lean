import BlockchainTutorial.Lib.Mapping
import BlockchainTutorial.Bitcoin.Block

namespace BlockchainTutorial.Bitcoin

/-! `blockchain.go`. A chain is the list of its blocks from the tip to the genesis
block, as the iterator gives them: blocks are stored under their hashes, which are
taken to be distinct. The hex text of an ID stands for the ID. -/

abbrev Chain := List Block

abbrev Bucket := Lib.Mapping Bytes (Option (List TXOutput))

def findTransaction (chain : Chain) (id : Bytes) : Option Transaction :=
  chain.findSome? fun block => block.transactions.find? fun tx => tx.id = id

structure Scan where
  utxo : Bucket
  spentTXOs : Lib.Mapping Bytes (List Int)

namespace Scan

/-- The loop `Outputs`. -/
def outputs (txID : Bytes) : Scan → Nat → List TXOutput → Scan
  | scan, _, [] => scan
  | scan, outIdx, out :: outs =>
      if (outIdx : Int) ∈ scan.spentTXOs.get txID then outputs txID scan (outIdx + 1) outs
      else
        outputs txID
          { scan with
            utxo := scan.utxo.set txID (some ((scan.utxo.get txID).getD [] ++ [out])) }
          (outIdx + 1) outs

def input (scan : Scan) (vin : TXInput) : Scan :=
  { scan with
    spentTXOs := scan.spentTXOs.set vin.txid (scan.spentTXOs.get vin.txid ++ [vin.vout]) }

def transaction (scan : Scan) (tx : Transaction) : Scan :=
  let scan := outputs tx.id scan 0 tx.vout
  if tx.isCoinbase then scan else tx.vin.foldl input scan

def block (scan : Scan) (block : Block) : Scan :=
  block.transactions.foldl transaction scan

end Scan

def findUTXO (chain : Chain) : Bucket :=
  (chain.foldl Scan.block ⟨∅, ∅⟩).utxo

/-- `prevTXs` has the transactions that the inputs name. -/
def verifyTransaction (crypto : Crypto) (chain : Chain) (tx : Transaction) : Option Bool :=
  if tx.isCoinbase then some true
  else if tx.vin.any fun vin => (findTransaction chain vin.txid).isNone then none
  else tx.verify crypto fun txid =>
    if tx.vin.any fun vin => vin.txid = txid then findTransaction chain txid else none

/-- The transactions of a chain that the inputs name. -/
def prevTXsOf (chain : Chain) (tx : Transaction) (txid : Bytes) : Option Transaction :=
  if tx.vin.any fun vin => vin.txid = txid then findTransaction chain txid else none

theorem prevTX_prevTXsOf {chain : Chain} {tx prev : Transaction} {vin : TXInput}
    (hvin : vin ∈ tx.vin) (hprev : findTransaction chain vin.txid = some prev) :
    Transaction.prevTX (prevTXsOf chain tx) vin.txid = prev := by
  have hnamed : (tx.vin.any fun other => other.txid = vin.txid) = true :=
    List.any_eq_true.mpr ⟨vin, hvin, decide_eq_true rfl⟩
  rw [Transaction.prevTX, prevTXsOf, if_pos hnamed, hprev, Option.getD_some]

theorem none_missing_iff {chain : Chain} {tx : Transaction} :
    ¬ (tx.vin.any fun vin => (findTransaction chain vin.txid).isNone) = true ↔
      ∀ vin ∈ tx.vin, (findTransaction chain vin.txid).isSome := by
  simp only [List.any_eq_true, not_exists, not_and, Option.isNone_iff_eq_none,
    Option.isSome_iff_ne_none]

section Verified

variable {crypto : Crypto} {chain : Chain} {tx : Transaction}

theorem found_of_verifyTransaction (hcoinbase : tx.isCoinbase = false)
    (h : (verifyTransaction crypto chain tx).isSome) :
    ∀ vin ∈ tx.vin, (findTransaction chain vin.txid).isSome := by
  unfold verifyTransaction at h
  rw [hcoinbase, if_neg Bool.false_ne_true] at h
  split at h
  · cases h
  · rename_i hpresent
    exact none_missing_iff.mp hpresent

theorem verifyTransaction_of_found (hcoinbase : tx.isCoinbase = false)
    (hfound : ∀ vin ∈ tx.vin, (findTransaction chain vin.txid).isSome) :
    verifyTransaction crypto chain tx = tx.verify crypto (prevTXsOf chain tx) := by
  unfold verifyTransaction
  rw [hcoinbase, if_neg Bool.false_ne_true, if_neg (none_missing_iff.mpr hfound)]
  rfl

end Verified

def mineBlock (crypto : Crypto) (timestamp : Int) (chain : Chain)
    (transactions : List Transaction) : Option Chain :=
  if transactions.all fun tx => verifyTransaction crypto chain tx = some true then
    match chain with
    | [] => none
    | last :: _ =>
        (newBlock crypto timestamp transactions last.hash (last.height + 1)).map (· :: chain)
  else none

theorem mineBlock_eq_some {crypto : Crypto} {timestamp : Int} {chain chain' : Chain}
    {txs : List Transaction} (h : mineBlock crypto timestamp chain txs = some chain') :
    (∀ tx ∈ txs, verifyTransaction crypto chain tx = some true) ∧
      ∃ block : Block, block.transactions = txs ∧ chain' = block :: chain := by
  unfold mineBlock at h
  split at h
  · rename_i hverified
    refine ⟨by simpa using hverified, ?_⟩
    cases chain with
    | nil => cases h
    | cons last chain =>
        obtain ⟨block, hblock, rfl⟩ := Option.map_eq_some_iff.mp h
        exact ⟨block, transactions_of_newBlock hblock, rfl⟩
  · cases h

/-- `pubKeyHash` is that of the address. -/
def createBlockchain (crypto : Crypto) (timestamp : Int) (pubKeyHash : Bytes) :
    Option Chain :=
  (newGenesisBlock crypto timestamp
    (newCoinbaseTX crypto pubKeyHash
      "The Times 03/Jan/2009 Chancellor on brink of second bailout for banks" [])).map ([·])

/-! `utxo_set.go`. The chainstate bucket holds lists of outputs in place of their
encodings. -/

/-- The longest key that a bucket takes. -/
def maxKeySize : Nat := 32768

/-- A key that a bucket takes. -/
def Storable (key : Bytes) : Prop :=
  key ≠ [] ∧ key.length ≤ maxKeySize

instance (key : Bytes) : Decidable (Storable key) :=
  inferInstanceAs (Decidable (_ ∧ _))

namespace UTXOSet

def cleared : Bucket := ∅

def put (bucket : Bucket) (key : Bytes) (outs : List TXOutput) : Option Bucket :=
  if Storable key then some (bucket.set key (some outs)) else none

/-- The last loop of `Reindex`; what is stored under other keys stays. -/
def writeEntries (bucket : Bucket) :
    List (Sigma fun _ : Bytes => Option (List TXOutput)) → Option Bucket
  | [] => some bucket
  | ⟨_, none⟩ :: rest => writeEntries bucket rest
  | ⟨key, some outs⟩ :: rest =>
      (put bucket key outs).bind fun bucket => writeEntries bucket rest

def write (bucket utxo : Bucket) : Option Bucket :=
  writeEntries bucket utxo.written.entries

end UTXOSet

/-- `Reindex`: the bucket is made anew and filled from `FindUTXO`. -/
def reindex (chain : Chain) : Option Bucket :=
  UTXOSet.write UTXOSet.cleared (findUTXO chain)

namespace UTXOSet

/-- The outputs that are not at the place that the input names. -/
def updatedOuts (vout : Int) : Nat → List TXOutput → List TXOutput
  | _, [] => []
  | outIdx, out :: outs =>
      if (outIdx : Int) ≠ vout then out :: updatedOuts vout (outIdx + 1) outs
      else updatedOuts vout (outIdx + 1) outs

/-- An ID that is not in the bucket cannot be decoded. -/
def updateInput (bucket : Bucket) (vin : TXInput) : Option Bucket :=
  match bucket.get vin.txid with
  | none => none
  | some outs =>
      let updated := updatedOuts vin.vout 0 outs
      if updated = [] then some (bucket.set vin.txid none)
      else put bucket vin.txid updated

def updateTransaction (bucket : Bucket) (tx : Transaction) : Option Bucket := do
  let bucket ← if tx.isCoinbase then some bucket else tx.vin.foldlM updateInput bucket
  put bucket tx.id tx.vout

def update (bucket : Bucket) (block : Block) : Option Bucket :=
  block.transactions.foldlM updateTransaction bucket

/-! What is written. -/

variable {bucket bucket' utxo : Bucket}

theorem put_eq_some {key : Bytes} {outs : List TXOutput}
    (h : put bucket key outs = some bucket') :
    Storable key ∧ bucket' = bucket.set key (some outs) := by
  unfold put at h
  split at h
  · rename_i hkey
    cases h
    exact ⟨hkey, rfl⟩
  · cases h

theorem writeEntries_get {entries : List (Sigma fun _ : Bytes => Option (List TXOutput))}
    (hnodup : entries.NodupKeys) (h : writeEntries bucket entries = some bucket')
    (key : Bytes) :
    bucket'.get key = ((entries.dlookup key).getD none).or (bucket.get key) := by
  induction entries generalizing bucket with
  | nil =>
      cases h
      rfl
  | cons entry rest ih =>
      obtain ⟨first, value⟩ := entry
      obtain ⟨hfirst, hrest⟩ := List.nodupKeys_cons.mp hnodup
      cases value with
      | none =>
          rw [ih hrest h]
          by_cases hkey : key = first
          · subst hkey
            rw [List.dlookup_cons_eq, List.dlookup_eq_none.mpr hfirst]
            rfl
          · rw [List.dlookup_cons_ne _ _ hkey]
      | some outs =>
          obtain ⟨stored, hput, h⟩ := Option.bind_eq_some_iff.mp h
          obtain ⟨_, rfl⟩ := put_eq_some hput
          rw [ih hrest h]
          by_cases hkey : key = first
          · subst hkey
            rw [List.dlookup_cons_eq, List.dlookup_eq_none.mpr hfirst,
              Lib.Mapping.get_set_self]
            rfl
          · rw [List.dlookup_cons_ne _ _ hkey, Lib.Mapping.get_set_of_ne _ _ hkey]

/-- What the scan found is stored, and nothing else changes. -/
theorem write_get (h : write bucket utxo = some bucket') (key : Bytes) :
    bucket'.get key = (utxo.get key).or (bucket.get key) :=
  writeEntries_get utxo.written.nodupKeys h key

theorem writeEntries_isSome
    {entries : List (Sigma fun _ : Bytes => Option (List TXOutput))} :
    (writeEntries bucket entries).isSome ↔
      ∀ entry ∈ entries, entry.2 ≠ none → Storable entry.1 := by
  induction entries generalizing bucket with
  | nil => simp [writeEntries]
  | cons entry rest ih =>
      obtain ⟨key, value⟩ := entry
      cases value with
      | none => simp [writeEntries, ih]
      | some outs =>
          by_cases hkey : Storable key
          · simp [writeEntries, put, hkey, ih]
          · simp [writeEntries, put, hkey]

/-- The write panics on a key that a bucket does not take. -/
theorem write_isSome :
    (write bucket utxo).isSome ↔ ∀ key, utxo.get key ≠ none → Storable key := by
  rw [write, writeEntries_isSome]
  constructor
  · intro hall key hkey
    have hlookup : utxo.written.lookup key = some (utxo.get key) := by
      cases hfound : utxo.written.lookup key with
      | none => exact absurd (by rw [Lib.Mapping.get, hfound]; rfl) hkey
      | some value => rw [Lib.Mapping.get, hfound, Option.getD_some]
    exact hall _ (AList.mem_lookup_iff.mp hlookup) hkey
  · intro hall entry hentry hvalue
    refine hall entry.1 ?_
    rwa [Lib.Mapping.get_of_mem_entries hentry]

end UTXOSet

section Rebuilt

variable {chain : Chain} {bucket : Bucket}

theorem reindex_get (h : reindex chain = some bucket) (id : Bytes) :
    bucket.get id = (findUTXO chain).get id := by
  rw [UTXOSet.write_get h]
  exact Option.or_none

theorem reindex_isSome :
    (reindex chain).isSome ↔ ∀ id, (findUTXO chain).get id ≠ none → Storable id :=
  UTXOSet.write_isSome

end Rebuilt

end BlockchainTutorial.Bitcoin
