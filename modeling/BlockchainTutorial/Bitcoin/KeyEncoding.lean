import BlockchainTutorial.Lib.BigEndian
import BlockchainTutorial.Bitcoin.Signing

namespace BlockchainTutorial.Bitcoin

/-! `wallet.go`, and the numbers that `Sign` and `newKeyPair` write and `Verify` reads. -/

/-- `big.Int.Bytes`. -/
def bigBytes (n : Nat) : Bytes :=
  (Lib.bigEndian 256 n).map UInt8.ofNat

/-- What the code uses of an `ecdsa.PrivateKey`: its public key, and the signatures that
`ecdsa.Sign` makes with it, one after another. -/
structure PrivateKey where
  publicKey : PublicKey
  ecdsaSign : Nat → String → Nat × Nat

structure Wallet where
  privateKey : PrivateKey
  publicKey : Bytes

/-- `private` is what `ecdsa.GenerateKey` returns. -/
def newKeyPair (privateKey : PrivateKey) : PrivateKey × Bytes :=
  (privateKey, bigBytes privateKey.publicKey.x ++ bigBytes privateKey.publicKey.y)

def newWallet (privateKey : PrivateKey) : Wallet :=
  ⟨(newKeyPair privateKey).1, (newKeyPair privateKey).2⟩

/-- The signature bytes of an input. -/
def PrivateKey.signature (privKey : PrivateKey) (inID : Nat) (dataToSign : String) : Bytes :=
  bigBytes (privKey.ecdsaSign inID dataToSign).1 ++ bigBytes (privKey.ecdsaSign inID dataToSign).2

/-- `Sign` with a private key. -/
def Transaction.signWith (tx : Transaction) (privKey : PrivateKey)
    (prevTXs : Bytes → Option Transaction) : Option Transaction :=
  tx.sign privKey.signature prevTXs

/-! The curve of `elliptic.P256()`. Its points are all multiples of the base point. -/

namespace P256

def p : Nat := 2 ^ 256 - 2 ^ 224 + 2 ^ 192 + 2 ^ 96 - 1

def n : Nat := 0xffffffff00000000ffffffffffffffffbce6faada7179e84f3b9cac2fc632551

def b : Nat := 0x5ac635d8aa3a93e7b3ebbd55769886bc651d06b0cc53b0f63bce3c3e27d2604b

def IsPublicKey (key : PublicKey) : Prop :=
  key.x < p ∧ key.y < p ∧ (key.y ^ 2 + 3 * key.x) % p = (key.x ^ 3 + b) % p

def IsSignature (signature : Nat × Nat) : Prop :=
  0 < signature.1 ∧ signature.1 < n ∧ 0 < signature.2 ∧ signature.2 < n

instance (key : PublicKey) : Decidable (IsPublicKey key) :=
  inferInstanceAs (Decidable (_ ∧ _ ∧ _))

instance (signature : Nat × Nat) : Decidable (IsSignature signature) :=
  inferInstanceAs (Decidable (_ ∧ _ ∧ _ ∧ _))

end P256

/-! Two numbers in one slice. -/

/-- `Verify` reads the numbers that were written. -/
def Recovered (a b : Nat) : Prop :=
  Transaction.halves (bigBytes a ++ bigBytes b) = (a, b)

/-- The second number is as long as the first, or one byte longer. -/
def MeetInMiddle (a b : Nat) : Prop :=
  (bigBytes a).length ≤ (bigBytes b).length ∧
    (bigBytes b).length ≤ (bigBytes a).length + 1

instance (a b : Nat) : Decidable (MeetInMiddle a b) :=
  inferInstanceAs (Decidable (_ ∧ _))

theorem setBytes_eq (bytes : Bytes) :
    setBytes bytes = Lib.ofBigEndian 256 (bytes.map UInt8.toNat) := by
  rw [← Lib.foldl_eq_ofBigEndian, List.foldl_map]
  rfl

theorem toNat_bigBytes (n : Nat) : (bigBytes n).map UInt8.toNat = Lib.bigEndian 256 n := by
  rw [bigBytes, List.map_map]
  refine (List.map_congr_left fun d hd => ?_).trans (List.map_id _)
  exact UInt8.toNat_ofNat_of_lt (Lib.lt_of_mem_bigEndian (by decide) hd)

theorem length_bigBytes (n : Nat) : (bigBytes n).length = (Lib.bigEndian 256 n).length :=
  List.length_map _

theorem recovered_iff_meet (a b : Nat) : Recovered a b ↔ MeetInMiddle a b := by
  have hhalves := Lib.halves_bigEndian_iff (by decide : 1 < 256) a b
  dsimp only at hhalves
  rw [MeetInMiddle, length_bigBytes, length_bigBytes, ← hhalves, Recovered,
    Transaction.halves, Prod.mk.injEq, setBytes_eq, setBytes_eq, List.map_take,
    List.map_drop, List.map_append, toNat_bigBytes, toNat_bigBytes, List.length_append,
    List.length_append, length_bigBytes, length_bigBytes]

/-! Transactions of a wallet. -/

/-- Every input spends an output that is locked with the wallet's key. -/
def SpendsOwn (crypto : Crypto) (wallet : Wallet) (prevTXs : Bytes → Option Transaction)
    (tx : Transaction) : Prop :=
  ∀ vin ∈ tx.vin, vin.pubKey = wallet.publicKey ∧ ∃ out, namedOutput prevTXs vin = some out ∧
    out.isLockedWithKey (hashPubKey crypto wallet.publicKey) = true

/-- `ecdsa.Verify` accepts what `ecdsa.Sign` has made. -/
def Accepts (crypto : Crypto) (privKey : PrivateKey) : Prop :=
  ∀ inID data, crypto.ecdsaVerify privKey.publicKey data (privKey.ecdsaSign inID data).1
    (privKey.ecdsaSign inID data).2 = true

/-- The signature for an input. -/
def PrivateKey.made (privKey : PrivateKey) (prevTXs : Bytes → Option Transaction)
    (tx : Transaction) (inID : Nat) (vin : TXInput) : Nat × Nat :=
  privKey.ecdsaSign inID (tx.signedData inID (Transaction.prevOut prevTXs vin))

def Passes (crypto : Crypto) (privKey : PrivateKey) (prevTXs : Bytes → Option Transaction)
    (tx : Transaction) : Prop :=
  ∃ tx', tx.signWith privKey prevTXs = some tx' ∧ tx'.verify crypto prevTXs = some true

section Wallet

variable {crypto : Crypto} {privKey : PrivateKey} {prevTXs : Bytes → Option Transaction}
  {tx : Transaction}

theorem namedOutput_eq_some {vin : TXInput} {out : TXOutput}
    (h : namedOutput prevTXs vin = some out) :
    (Transaction.prevTX prevTXs vin.txid).id ≠ [] ∧
      outputAt (Transaction.prevTX prevTXs vin.txid).vout vin.vout = some out := by
  unfold namedOutput at h
  split at h
  · cases h
  · rename_i hid
    exact ⟨hid, h⟩

theorem SpendsOwn.not_coinbase {wallet : Wallet} (h : SpendsOwn crypto wallet prevTXs tx) :
    tx.isCoinbase = false := by
  unfold Transaction.isCoinbase
  split
  · rename_i vin hvin
    refine decide_eq_false fun ⟨_, hvout⟩ => ?_
    obtain ⟨_, out, hnamed, _⟩ := h vin (by rw [hvin]; exact List.mem_cons_self)
    have hout := (namedOutput_eq_some hnamed).2
    rw [hvout] at hout
    cases hout
  · rfl

theorem SpendsOwn.signWith_eq {wallet : Wallet} (h : SpendsOwn crypto wallet prevTXs tx) :
    tx.signWith privKey prevTXs = some (tx.signed privKey.signature prevTXs) := by
  refine Transaction.sign_eq h.not_coinbase fun vin hvin => ?_
  obtain ⟨_, out, hnamed, _⟩ := h vin hvin
  obtain ⟨hid, hout⟩ := namedOutput_eq_some hnamed
  rw [hout]
  exact ⟨hid, rfl⟩

/-- When the key and the signatures are read as they were written, they pass. -/
theorem SpendsOwn.passes (h : SpendsOwn crypto (newWallet privKey) prevTXs tx)
    (haccepts : Accepts crypto privKey)
    (hkey : Recovered privKey.publicKey.x privKey.publicKey.y)
    (hsignatures : ∀ i vin, tx.vin[i]? = some vin →
      Recovered (privKey.made prevTXs tx i vin).1 (privKey.made prevTXs tx i vin).2) :
    Passes crypto privKey prevTXs tx := by
  refine ⟨_, h.signWith_eq, ?_⟩
  rw [Transaction.verify_eq_true ((Transaction.isCoinbase_signed tx).trans h.not_coinbase)]
  intro i vin' hvin'
  obtain ⟨vin, hvin, rfl⟩ := Transaction.signed_get hvin'
  obtain ⟨hpubKey, out, hnamed, _⟩ := h vin (List.mem_of_getElem? hvin)
  have hprevOut : Transaction.prevOut prevTXs vin = out := by
    rw [Transaction.prevOut, (namedOutput_eq_some hnamed).2]
    rfl
  have hmade : privKey.made prevTXs tx i vin = privKey.ecdsaSign i (tx.signedData i out) := by
    rw [PrivateKey.made, hprevOut]
  have hrawPubKey : Transaction.rawPubKey
      (tx.signedInput privKey.signature prevTXs i vin) = privKey.publicKey := by
    change (⟨(Transaction.halves vin.pubKey).1, (Transaction.halves vin.pubKey).2⟩ :
      PublicKey) = _
    rw [hpubKey]
    change (⟨(Transaction.halves (bigBytes _ ++ bigBytes _)).1,
      (Transaction.halves (bigBytes _ ++ bigBytes _)).2⟩ : PublicKey) = _
    rw [hkey]
  have hsignature : Transaction.halves (tx.signedInput privKey.signature prevTXs i vin).signature =
      privKey.ecdsaSign i (tx.signedData i out) := by
    rw [← hmade]
    exact hsignatures i vin hvin
  refine ⟨out, hnamed, ?_⟩
  rw [Transaction.signedData_signed, hrawPubKey, hsignature]
  exact haccepts i (tx.signedData i out)

/-- Keys and signatures survive when their two numbers meet in the middle: one by one, and
for a transaction that a wallet signs. -/
theorem encoding_survives_iff (haccepts : Accepts crypto privKey)
    (hspends : SpendsOwn crypto (newWallet privKey) prevTXs tx) :
    (∀ (key : PublicKey) (r s : Nat), Recovered key.x key.y ∧ Recovered r s ↔
      MeetInMiddle key.x key.y ∧ MeetInMiddle r s) ∧
    (Recovered privKey.publicKey.x privKey.publicKey.y ∧
        (∀ i vin, tx.vin[i]? = some vin →
          Recovered (privKey.made prevTXs tx i vin).1 (privKey.made prevTXs tx i vin).2) ∧
        Passes crypto privKey prevTXs tx ↔
      MeetInMiddle privKey.publicKey.x privKey.publicKey.y ∧
        ∀ i vin, tx.vin[i]? = some vin →
          MeetInMiddle (privKey.made prevTXs tx i vin).1 (privKey.made prevTXs tx i vin).2) := by
  constructor
  · intro key r s
    rw [recovered_iff_meet, recovered_iff_meet]
  · simp only [← recovered_iff_meet]
    constructor
    · rintro ⟨hkey, hsignatures, _⟩
      exact ⟨hkey, hsignatures⟩
    · rintro ⟨hkey, hsignatures⟩
      exact ⟨hkey, hsignatures, hspends.passes haccepts hkey hsignatures⟩

end Wallet

section Example

/-! For each key a signer that always makes the signature `(1, 1)`, and a check that accepts
only this one for only this key. -/

def fixedKey (key : PublicKey) : PrivateKey :=
  ⟨key, fun _ _ => (1, 1)⟩

def fixedCrypto (key : PublicKey) : Crypto :=
  { exampleCrypto with ecdsaVerify := fun other _ r s => other = key ∧ r = 1 ∧ s = 1 }

/-- Ten coins of the key. -/
def fixedTXs (key : PublicKey) (_ : Bytes) : Option Transaction :=
  some ⟨[1], [⟨[], -1, [], []⟩], [⟨10, (newKeyPair (fixedKey key)).2⟩]⟩

def fixedSpend (key : PublicKey) : Transaction :=
  ⟨[2], [⟨[1], 0, [], (newKeyPair (fixedKey key)).2⟩], [⟨10, [5, 5]⟩]⟩

theorem accepts_fixed (key : PublicKey) : Accepts (fixedCrypto key) (fixedKey key) := by
  intro inID data
  change decide (key = key ∧ 1 = 1 ∧ 1 = 1) = true
  exact decide_eq_true ⟨rfl, rfl, rfl⟩

theorem spendsOwn_fixed (key : PublicKey) :
    SpendsOwn (fixedCrypto key) (newWallet (fixedKey key)) (fixedTXs key) (fixedSpend key) := by
  intro vin hvin
  obtain rfl := List.mem_singleton.mp hvin
  exact ⟨rfl, ⟨10, (newKeyPair (fixedKey key)).2⟩, rfl, decide_eq_true rfl⟩

/-- The key of the number 1. -/
def baseKey : PublicKey where
  x := 0x6b17d1f2e12c4247f8bce6e563a440f277037d812deb33a0f4a13945d898c296
  y := 0x4fe342e2fe1a7f9b8ee7eb4a7c0f9e162bce33576b315ececbb6406837bf51f5

theorem encoding_survives_base :
    Passes (fixedCrypto baseKey) (fixedKey baseKey) (fixedTXs baseKey) (fixedSpend baseKey) := by
  refine ((encoding_survives_iff (accepts_fixed baseKey) (spendsOwn_fixed baseKey)).2.mpr
    ⟨by decide +kernel, ?_⟩).2.2
  intro i vin _
  change MeetInMiddle 1 1
  decide +kernel

/-- The key of the number 43. Its second coordinate has 31 bytes. -/
def shortKey : PublicKey where
  x := 0x986ae2506f1ff104d04230861d8f4b498f4bc4c6d009b30f7544dc129b82d28d
  y := 0x3cccc0a6460e0ae328a4d97d3c7b61d86fc6289c189f2525110c441bb07e97

theorem short_key_rejected : ¬ ∀ (crypto : Crypto) (privKey : PrivateKey)
    (prevTXs : Bytes → Option Transaction) (tx : Transaction),
    P256.IsPublicKey privKey.publicKey →
    (∀ inID data, P256.IsSignature (privKey.ecdsaSign inID data)) →
    Accepts crypto privKey → SpendsOwn crypto (newWallet privKey) prevTXs tx →
    Recovered privKey.publicKey.x privKey.publicKey.y ∧
      (∀ i vin, tx.vin[i]? = some vin →
        Recovered (privKey.made prevTXs tx i vin).1 (privKey.made prevTXs tx i vin).2) ∧
      Passes crypto privKey prevTXs tx := by
  intro h
  have hsignature : P256.IsSignature (1, 1) := by decide +kernel
  obtain ⟨_, _, tx', hsign, hverify⟩ := h _ _ _ _ (by decide +kernel : P256.IsPublicKey shortKey)
    (fun _ _ => hsignature) (accepts_fixed shortKey) (spendsOwn_fixed shortKey)
  have hrejected : (((fixedSpend shortKey).signWith (fixedKey shortKey)
      (fixedTXs shortKey)).bind fun tx =>
        tx.verify (fixedCrypto shortKey) (fixedTXs shortKey)) = some false := by
    decide +kernel
  rw [hsign, Option.bind_some, hverify] at hrejected
  cases hrejected

end Example

end BlockchainTutorial.Bitcoin
