import Mathlib.Data.List.Basic

namespace BlockchainTutorial.Bitcoin

/-! `transaction.go`, `transaction_input.go` and `transaction_output.go`. An empty
slice is a nil one, as it is after decoding. A call of `log.Panic` and an index out of
range give `none`. -/

abbrev Bytes := List UInt8

structure TXInput where
  txid : Bytes
  vout : Int
  signature : Bytes
  pubKey : Bytes
  deriving DecidableEq, Repr

structure TXOutput where
  value : Int
  pubKeyHash : Bytes
  deriving DecidableEq, Repr

structure Transaction where
  id : Bytes
  vin : List TXInput
  vout : List TXOutput
  deriving DecidableEq, Repr

structure PublicKey where
  x : Nat
  y : Nat
  deriving DecidableEq, Repr

/-- What the code uses of other packages: hashes, `ecdsa.Verify` on the curve P256, and
the encoding of a transaction by `gob`. -/
structure Crypto where
  sha256 : Bytes → Bytes
  ripemd160 : Bytes → Bytes
  ecdsaVerify : PublicKey → String → Nat → Nat → Bool
  serialize : Transaction → Bytes

def subsidy : Int := 10

def hexDigit (n : Nat) : Char :=
  if n < 10 then Char.ofNat (48 + n) else Char.ofNat (87 + n)

/-- `hex.EncodeToString`, and the verb `%x` for bytes. -/
def encodeToString (bytes : Bytes) : String :=
  String.ofList (bytes.flatMap fun b => [hexDigit (b.toNat / 16), hexDigit (b.toNat % 16)])

/-- `big.Int.SetBytes`. -/
def setBytes (bytes : Bytes) : Nat :=
  bytes.foldl (fun n b => 256 * n + b.toNat) 0

def hashPubKey (crypto : Crypto) (pubKey : Bytes) : Bytes :=
  crypto.ripemd160 (crypto.sha256 pubKey)

def TXInput.usesKey (crypto : Crypto) (vin : TXInput) (pubKeyHash : Bytes) : Bool :=
  hashPubKey crypto vin.pubKey = pubKeyHash

def TXOutput.isLockedWithKey (out : TXOutput) (pubKeyHash : Bytes) : Bool :=
  out.pubKeyHash = pubKeyHash

def outputAt (outs : List TXOutput) (index : Int) : Option TXOutput :=
  if index < 0 then none else outs[index.toNat]?

namespace Transaction

def isCoinbase (tx : Transaction) : Bool :=
  match tx.vin with
  | [vin] => vin.txid = [] ∧ vin.vout = -1
  | _ => false

def hash (crypto : Crypto) (tx : Transaction) : Bytes :=
  crypto.sha256 (crypto.serialize { tx with id := [] })

def inputLines (i : Nat) (input : TXInput) : List String :=
  ["     Input " ++ toString i ++ ":",
    "       TXID:      " ++ encodeToString input.txid,
    "       Out:       " ++ toString input.vout,
    "       Signature: " ++ encodeToString input.signature,
    "       PubKey:    " ++ encodeToString input.pubKey]

def outputLines (i : Nat) (output : TXOutput) : List String :=
  ["     Output " ++ toString i ++ ":",
    "       Value:  " ++ toString output.value,
    "       Script: " ++ encodeToString output.pubKeyHash]

def string (tx : Transaction) : String :=
  "\n".intercalate
    (["--- Transaction " ++ encodeToString tx.id ++ ":"] ++
      (tx.vin.mapIdx inputLines).flatten ++ (tx.vout.mapIdx outputLines).flatten)

/-- `fmt.Sprintf("%x\n", tx)`, which uses the method `String`. -/
def sprintf (tx : Transaction) : String :=
  encodeToString tx.string.toUTF8.toList ++ "\n"

def trimmedCopy (tx : Transaction) : Transaction where
  id := tx.id
  vin := tx.vin.map fun vin => ⟨vin.txid, vin.vout, [], []⟩
  vout := tx.vout.map fun vout => ⟨vout.value, vout.pubKeyHash⟩

/-- `txCopy.Vin[inID].Signature = nil` and `txCopy.Vin[inID].PubKey = pubKey`. -/
def setPubKey (txCopy : Transaction) (inID : Nat) (pubKey : Bytes) : Transaction :=
  { txCopy with
    vin := txCopy.vin.modify inID fun vin => { vin with signature := [], pubKey } }

/-- A missing key of the map gives the zero transaction. -/
def prevTX (prevTXs : Bytes → Option Transaction) (txid : Bytes) : Transaction :=
  (prevTXs txid).getD ⟨[], [], []⟩

def halves (bytes : Bytes) : Nat × Nat :=
  (setBytes (bytes.take (bytes.length / 2)), setBytes (bytes.drop (bytes.length / 2)))

def rawPubKey (vin : TXInput) : PublicKey :=
  ⟨(halves vin.pubKey).1, (halves vin.pubKey).2⟩

def verifyInputs (crypto : Crypto) (prevTXs : Bytes → Option Transaction) :
    Transaction → Nat → List TXInput → Option Bool
  | _, _, [] => some true
  | txCopy, inID, vin :: vins =>
      match outputAt (prevTX prevTXs vin.txid).vout vin.vout with
      | none => none
      | some prevOut =>
          let txCopy := txCopy.setPubKey inID prevOut.pubKeyHash
          let (r, s) := halves vin.signature
          let dataToVerify := txCopy.sprintf
          if crypto.ecdsaVerify (rawPubKey vin) dataToVerify r s = false then some false
          else verifyInputs crypto prevTXs (txCopy.setPubKey inID []) (inID + 1) vins

def verify (crypto : Crypto) (tx : Transaction) (prevTXs : Bytes → Option Transaction) :
    Option Bool :=
  if tx.isCoinbase then some true
  else if tx.vin.any fun vin => (prevTX prevTXs vin.txid).id = [] then none
  else verifyInputs crypto prevTXs tx.trimmedCopy 0 tx.vin

end Transaction

/-- The public key hash of an address stands for `Lock`. -/
def newTXOutput (value : Int) (pubKeyHash : Bytes) : TXOutput :=
  ⟨value, pubKeyHash⟩

/-- Without data the twenty random bytes take its place. -/
def newCoinbaseTX (crypto : Crypto) (pubKeyHash : Bytes) (data : String)
    (randData : Bytes) : Transaction :=
  let data := if data = "" then encodeToString randData else data
  let tx : Transaction :=
    ⟨[], [⟨[], -1, [], data.toUTF8.toList⟩], [newTXOutput subsidy pubKeyHash]⟩
  { tx with id := tx.hash crypto }

/-! What the inputs name. -/

def outpoint (vin : TXInput) : Bytes × Int :=
  (vin.txid, vin.vout)

theorem isCoinbase_of_outpoints {tx tx' : Transaction}
    (h : tx.vin.map outpoint = tx'.vin.map outpoint) : tx.isCoinbase = tx'.isCoinbase := by
  unfold Transaction.isCoinbase
  match hvin : tx.vin, hvin' : tx'.vin with
  | [], [] => rfl
  | [vin], [vin'] =>
      rw [hvin, hvin'] at h
      obtain ⟨hid, hvout⟩ := Prod.mk.inj (List.cons.inj h).1
      simp only [hid, hvout]
  | _ :: _ :: _, _ :: _ :: _ => rfl
  | [], _ :: _ => simp [hvin, hvin'] at h
  | _ :: _, [] => simp [hvin, hvin'] at h
  | [_], _ :: _ :: _ => simp [hvin, hvin'] at h
  | _ :: _ :: _, [_] => simp [hvin, hvin'] at h

end BlockchainTutorial.Bitcoin
