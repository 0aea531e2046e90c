import BlockchainTutorial.Bitcoin.Base58

namespace BlockchainTutorial.Bitcoin

/-! Addresses, from `wallet.go` and `transaction_output.go`. A text is the list of its
bytes. -/

/-- `bytes[low:high]`. -/
def slice (bytes : Bytes) (low high : Int) : Option Bytes :=
  if 0 ≤ low ∧ low ≤ high ∧ high ≤ bytes.length then
    some ((bytes.take high.toNat).drop low.toNat)
  else none

def version : UInt8 := 0

def addressChecksumLen : Nat := 4

def checksum (crypto : Crypto) (payload : Bytes) : Bytes :=
  (crypto.sha256 (crypto.sha256 payload)).take addressChecksumLen

def Wallet.getAddress (crypto : Crypto) (w : Wallet) : Option Bytes :=
  let pubKeyHash := hashPubKey crypto w.publicKey
  let versionedPayload := version :: pubKeyHash
  base58Encode (versionedPayload ++ checksum crypto versionedPayload)

def validateAddress (crypto : Crypto) (address : Bytes) : Option Bool := do
  let pubKeyHash ← base58Decode address
  let actualChecksum ←
    slice pubKeyHash (pubKeyHash.length - addressChecksumLen) pubKeyHash.length
  let version ← pubKeyHash[0]?
  let pubKeyHash ← slice pubKeyHash 1 (pubKeyHash.length - addressChecksumLen)
  let targetChecksum := checksum crypto (version :: pubKeyHash)
  some (actualChecksum = targetChecksum)

def TXOutput.lock (out : TXOutput) (address : Bytes) : Option TXOutput := do
  let pubKeyHash ← base58Decode address
  let pubKeyHash ← slice pubKeyHash 1 (pubKeyHash.length - 4)
  some { out with pubKeyHash }

/-! The address of a wallet. -/

section Wallet

variable {crypto : Crypto}

theorem length_checksum (hsha : ∀ data, (crypto.sha256 data).length = 32) (payload : Bytes) :
    (checksum crypto payload).length = 4 := by
  rw [checksum, List.length_take, hsha]
  rfl

theorem slice_middle (first : UInt8) (middle last : Bytes) (h : last.length = 4) :
    slice (first :: middle ++ last) 1 ((first :: middle ++ last).length - 4) = some middle := by
  have hlength : (first :: middle ++ last).length = middle.length + 1 + 4 := by
    rw [List.length_append, List.length_cons, h]
  have hhigh : ((first :: middle ++ last).length - 4 : Int).toNat = (first :: middle).length := by
    rw [hlength, List.length_cons]
    omega
  rw [slice, if_pos (by rw [hlength]; omega), hhigh, List.take_left]
  rfl

theorem length_slice {bytes part : Bytes} {low high : Int} (h : slice bytes low high = some part) :
    (part.length : Int) = high - low := by
  unfold slice at h
  split at h
  · cases h
    rw [List.length_drop, List.length_take]
    omega
  · cases h

/-- The output that is locked with the address of a wallet is for its key. -/
def Recognised (crypto : Crypto) (w : Wallet) (out : TXOutput) : Prop :=
  ∃ address locked, w.getAddress crypto = some address ∧ out.lock address = some locked ∧
    locked.isLockedWithKey (hashPubKey crypto w.publicKey) = true

theorem recognised_iff (hsha : ∀ data, (crypto.sha256 data).length = 32)
    (hripemd : ∀ data, (crypto.ripemd160 data).length = 20) (w : Wallet) (out : TXOutput) :
    Recognised crypto w out ↔ (hashPubKey crypto w.publicKey).head? ≠ some 0 := by
  have hhash : (hashPubKey crypto w.publicKey).length = 20 := hripemd _
  have hsum := length_checksum hsha (version :: hashPubKey crypto w.publicKey)
  unfold Recognised Wallet.getAddress TXOutput.lock
  dsimp only
  generalize checksum crypto (version :: hashPubKey crypto w.publicKey) = sum at hsum ⊢
  generalize hashPubKey crypto w.publicKey = hash at hhash ⊢
  obtain ⟨address, haddress, hdecoded⟩ :=
    Option.bind_eq_some_iff.mp (base58Decode_encode version (hash ++ sum))
  rw [if_pos (by decide : version = 0), List.dropWhile_cons_of_pos (by decide)] at hdecoded
  rw [List.cons_append, haddress]
  obtain ⟨first, hash, rfl⟩ := List.exists_cons_of_length_pos (l := hash) (by omega)
  rw [List.head?_cons, Ne, Option.some.injEq]
  constructor
  · rintro ⟨_, locked, ⟨⟩, hlocked, hkey⟩ hfirst
    obtain ⟨payload, hpayload, hlocked⟩ := Option.bind_eq_some_iff.mp hlocked
    obtain ⟨part, hpart, hlocked⟩ := Option.bind_eq_some_iff.mp hlocked
    cases hlocked
    obtain rfl : part = first :: hash := of_decide_eq_true hkey
    obtain rfl := Option.some.inj (hdecoded.symm.trans hpayload)
    -- what is decoded is shorter than the payload
    have hlength := length_slice hpart
    have hle := (List.dropWhile_suffix (p := fun b : UInt8 => decide (b = 0))
      (l := hash ++ sum)).length_le
    rw [List.cons_append, List.dropWhile_cons_of_pos (by simpa using hfirst)] at hlength
    rw [List.length_append] at hle
    rw [List.length_cons] at hhash hlength
    rw [List.length_cons] at hlength
    omega
  · intro hfirst
    rw [List.cons_append, List.dropWhile_cons_of_neg (by simpa using hfirst)] at hdecoded
    refine ⟨address, { out with pubKeyHash := first :: hash }, rfl, ?_, decide_eq_true rfl⟩
    rw [hdecoded]
    exact congrArg (Option.bind · _) (slice_middle 0 (first :: hash) sum hsum)

/-- Encoding loses all but one of the zeros at the start, and so do addresses. -/
theorem base58_roundTrip_iff (hsha : ∀ data, (crypto.sha256 data).length = 32)
    (hripemd : ∀ data, (crypto.ripemd160 data).length = 20) :
    (∀ input : Bytes, input ≠ [] →
      ((base58Encode input).bind base58Decode = some input ↔ ¬ [0, 0] <+: input)) ∧
    ∀ w out, Recognised crypto w out ↔ (hashPubKey crypto w.publicKey).head? ≠ some 0 :=
  ⟨fun _ hinput => roundTrip_iff hinput, recognised_iff hsha hripemd⟩

end Wallet

section Example

def baseWallet : Wallet :=
  newWallet (fixedKey baseKey)

def baseKeyHash : Bytes :=
  bigBytes 0xb134d1f44dca906dcd7c96e4455d7eaa9efa6987

/-- The hashes on the way from the key of the number 1 to its address. -/
def baseCrypto : Crypto :=
  { exampleCrypto with
    sha256 := fun data =>
      if data = baseWallet.publicKey then
        bigBytes 0xd875db7def232236aec738c6b0bb3e80142f5d0fd8f4df24fed6eef5cbb50d9f
      else if data = version :: baseKeyHash then
        bigBytes 0x766ea101b655df983616a1c691a5fd9d3e5605e0b0a6437ca3bb00bda4fa56de
      else if data =
          bigBytes 0x766ea101b655df983616a1c691a5fd9d3e5605e0b0a6437ca3bb00bda4fa56de then
        bigBytes 0x0ab2d129a3661f145ca1f68bbb8977f6f0852117106e0dedf732c31e11356330
      else List.replicate 32 0
    ripemd160 := fun data =>
      if data =
          bigBytes 0xd875db7def232236aec738c6b0bb3e80142f5d0fd8f4df24fed6eef5cbb50d9f then
        baseKeyHash
      else List.replicate 20 0 }

theorem length_baseCrypto_sha256 (data : Bytes) : (baseCrypto.sha256 data).length = 32 := by
  unfold baseCrypto
  dsimp only
  split
  · decide +kernel
  · split
    · decide +kernel
    · split <;> decide +kernel

theorem length_baseCrypto_ripemd160 (data : Bytes) :
    (baseCrypto.ripemd160 data).length = 20 := by
  unfold baseCrypto
  dsimp only
  split <;> decide +kernel

example : baseWallet.getAddress baseCrypto =
    some ("1H9ysxkbjve5xCgsooBQLxWbPjD77AHuCC".toList.map Char.toUInt8) := by
  decide +kernel

theorem base58_roundTrip_base : Recognised baseCrypto baseWallet ⟨10, []⟩ :=
  ((base58_roundTrip_iff length_baseCrypto_sha256 length_baseCrypto_ripemd160).2 _ _).mpr
    (by decide +kernel)

theorem base58_drops_zero : ¬ ∀ (crypto : Crypto),
    (∀ data, (crypto.sha256 data).length = 32) →
    (∀ data, (crypto.ripemd160 data).length = 20) →
    (∀ input : Bytes, input ≠ [] →
      (base58Encode input).bind base58Decode = some input) ∧
    ∀ w out, Recognised crypto w out := by
  intro h
  have hzeros := (h baseCrypto length_baseCrypto_sha256 length_baseCrypto_ripemd160).1
    [0, 0] (List.cons_ne_nil _ _)
  exact absurd hzeros (by decide)

end Example

end BlockchainTutorial.Bitcoin
