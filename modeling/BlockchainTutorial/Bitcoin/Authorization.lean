import Mathlib.Logic.Function.Basic
import BlockchainTutorial.Bitcoin.Transaction

namespace BlockchainTutorial.Bitcoin

/-! What a verified transaction shows: a signature by the key in the input, and nothing
about whether that key is the one that locks the output. -/

variable {crypto : Crypto} {prevTXs : Bytes → Option Transaction} {tx : Transaction}

/-- The output that an input names, where the map holds its transaction. -/
def namedOutput (prevTXs : Bytes → Option Transaction) (vin : TXInput) : Option TXOutput :=
  if (Transaction.prevTX prevTXs vin.txid).id = [] then none
  else outputAt (Transaction.prevTX prevTXs vin.txid).vout vin.vout

namespace Transaction

def signedData (tx : Transaction) (inID : Nat) (prevOut : TXOutput) : String :=
  (tx.trimmedCopy.setPubKey inID prevOut.pubKeyHash).sprintf

theorem setPubKey_nil (tx : Transaction) (inID : Nat) (pubKey : Bytes) :
    (tx.trimmedCopy.setPubKey inID pubKey).setPubKey inID [] = tx.trimmedCopy := by
  have hvin : ((tx.trimmedCopy.vin.modify inID
      fun vin => { vin with signature := [], pubKey }).modify inID
        fun vin => { vin with signature := [], pubKey := [] }) = tx.trimmedCopy.vin := by
    refine List.ext_getElem? fun i => ?_
    rw [List.getElem?_modify, List.getElem?_modify]
    cases hvin : tx.vin[i]? with
    | none => simp [trimmedCopy, hvin]
    | some vin => by_cases hi : inID = i <;> simp [trimmedCopy, hvin, hi]
  unfold setPubKey
  rw [hvin]

theorem verifyInputs_eq_true (vins : List TXInput) (inID : Nat) :
    verifyInputs crypto prevTXs tx.trimmedCopy inID vins = some true ↔
      ∀ i vin, vins[i]? = some vin → ∃ out,
        outputAt (prevTX prevTXs vin.txid).vout vin.vout = some out ∧
          crypto.ecdsaVerify (rawPubKey vin) (tx.signedData (inID + i) out)
            (halves vin.signature).1 (halves vin.signature).2 = true := by
  induction vins generalizing inID with
  | nil => simp [verifyInputs]
  | cons vin vins ih =>
      unfold verifyInputs
      cases hout : outputAt (prevTX prevTXs vin.txid).vout vin.vout with
      | none =>
          simp only [reduceCtorEq, false_iff]
          intro h
          obtain ⟨out, hsome, _⟩ := h 0 vin rfl
          rw [hout] at hsome
          cases hsome
      | some out =>
          simp only [setPubKey_nil]
          constructor
          · intro h i
            split at h
            · cases h
            · rename_i hverify
              cases i with
              | zero =>
                  rintro _ ⟨⟩
                  exact ⟨out, hout, Bool.of_not_eq_false hverify⟩
              | succ i =>
                  intro other hother
                  have hrest := (ih (inID + 1)).mp h i other hother
                  rwa [Nat.add_right_comm] at hrest
          · intro h
            obtain ⟨first, hfirst, hverify⟩ := h 0 vin rfl
            obtain rfl := Option.some.inj (hout.symm.trans hfirst)
            have hverify : crypto.ecdsaVerify (rawPubKey vin)
                (tx.trimmedCopy.setPubKey inID out.pubKeyHash).sprintf
                (halves vin.signature).1 (halves vin.signature).2 = true := hverify
            simp only [hverify, Bool.true_eq_false, if_false]
            refine (ih (inID + 1)).mpr ?_
            intro i other hother
            have hrest := h (i + 1) other hother
            rwa [Nat.add_comm i 1, ← Nat.add_assoc] at hrest

/-- A transaction is verified when each input names an output, and its signature passes
for the key in the input. -/
theorem verify_eq_true (hcoinbase : tx.isCoinbase = false) :
    tx.verify crypto prevTXs = some true ↔
      ∀ i vin, tx.vin[i]? = some vin → ∃ out, namedOutput prevTXs vin = some out ∧
        crypto.ecdsaVerify (rawPubKey vin) (tx.signedData i out)
          (halves vin.signature).1 (halves vin.signature).2 = true := by
  unfold verify
  rw [hcoinbase, if_neg Bool.false_ne_true]
  split
  · rename_i hmissing
    simp only [reduceCtorEq, false_iff]
    intro h
    obtain ⟨vin, hmem, hnone⟩ := List.any_eq_true.mp hmissing
    obtain ⟨i, hi⟩ := List.mem_iff_getElem?.mp hmem
    obtain ⟨out, hnamed, _⟩ := h i vin hi
    rw [namedOutput, if_pos (of_decide_eq_true hnone)] at hnamed
    cases hnamed
  · rename_i hpresent
    rw [verifyInputs_eq_true]
    refine forall_congr' fun i => forall_congr' fun vin => ?_
    refine imp_congr_right fun hi => ?_
    have hid : (prevTX prevTXs vin.txid).id ≠ [] := by
      intro hnone
      exact hpresent (List.any_eq_true.mpr
        ⟨vin, List.mem_of_getElem? hi, decide_eq_true hnone⟩)
    rw [namedOutput, if_neg hid, Nat.zero_add]

theorem verify_single {vin : TXInput} {out : TXOutput} (hcoinbase : tx.isCoinbase = false)
    (hvin : tx.vin = [vin]) (hnamed : namedOutput prevTXs vin = some out)
    (hverify : crypto.ecdsaVerify (rawPubKey vin) (tx.signedData 0 out)
      (halves vin.signature).1 (halves vin.signature).2 = true) :
    tx.verify crypto prevTXs = some true := by
  refine (verify_eq_true hcoinbase).mpr ?_
  intro i other hi
  rw [hvin, List.getElem?_singleton, Option.ite_none_right_eq_some] at hi
  obtain ⟨rfl, hi⟩ := hi
  obtain rfl := Option.some.inj hi
  exact ⟨out, hnamed, hverify⟩

end Transaction

/-- If `Verify` returns true, the key of each input is one that locks the output. -/
def Authorized (crypto : Crypto) (tx : Transaction)
    (prevTXs : Bytes → Option Transaction) : Prop :=
  tx.verify crypto prevTXs = some true → ∀ vin ∈ tx.vin, ∃ out,
    namedOutput prevTXs vin = some out ∧ vin.usesKey crypto out.pubKeyHash = true

/-! Any signer can fill in the keys and the signatures of a transaction. -/

section Signers

variable {made : PublicKey → String → Nat → Nat → Prop}

/-- There is a signature of every text under the public key. -/
def Signs (made : PublicKey → String → Nat → Nat → Prop) (pubKey : Bytes) : Prop :=
  ∀ data, ∃ signature, made ⟨(Transaction.halves pubKey).1, (Transaction.halves pubKey).2⟩ data
    (Transaction.halves signature).1 (Transaction.halves signature).2

/-- Of two keys, one does not lock an output. -/
theorem exists_stranger (hhash : Function.Injective (hashPubKey crypto)) {key other : Bytes}
    (hne : key ≠ other) (hkey : Signs made key) (hother : Signs made other)
    (pubKeyHash : Bytes) :
    ∃ stranger, hashPubKey crypto stranger ≠ pubKeyHash ∧ Signs made stranger := by
  by_cases hlocks : hashPubKey crypto key = pubKeyHash
  · refine ⟨other, fun hsame => hne ?_, hother⟩
    exact hhash (hlocks.trans hsame.symm)
  · exact ⟨key, hlocks, hkey⟩

/-- The transaction with other keys and signatures in its inputs. -/
def Transaction.filled (tx : Transaction) (keys signatures : Nat → Bytes) : Transaction :=
  { tx with
    vin := tx.vin.mapIdx fun i vin =>
      { vin with signature := signatures i, pubKey := keys i } }

@[simp] theorem Transaction.trimmedCopy_filled (tx : Transaction)
    (keys signatures : Nat → Bytes) :
    (tx.filled keys signatures).trimmedCopy = tx.trimmedCopy := by
  unfold filled trimmedCopy
  congr 1
  refine List.ext_getElem? fun i => ?_
  rw [List.getElem?_map, List.getElem?_map, List.getElem?_mapIdx]
  cases tx.vin[i]? <;> rfl

theorem Transaction.vin_filled {keys signatures : Nat → Bytes} {i : Nat} {vin : TXInput}
    (h : (tx.filled keys signatures).vin[i]? = some vin) :
    ∃ old, tx.vin[i]? = some old ∧
      vin = { old with signature := signatures i, pubKey := keys i } := by
  rw [filled, List.getElem?_mapIdx] at h
  obtain ⟨old, hold, rfl⟩ := Option.map_eq_some_iff.mp h
  exact ⟨old, hold, rfl⟩

theorem outpoints_of_trimmedCopy {tx' : Transaction}
    (h : tx'.trimmedCopy = tx.trimmedCopy) : tx'.vin.map outpoint = tx.vin.map outpoint := by
  have hvin := congrArg (List.map outpoint) (congrArg Transaction.vin h)
  rwa [Transaction.trimmedCopy, Transaction.trimmedCopy, List.map_map, List.map_map] at hvin

/-- Where every input names an output, keys that lock none of them pass. -/
theorem exists_theft
    (hmade : ∀ key data r s, crypto.ecdsaVerify key data r s = true ↔ made key data r s)
    (hstranger : ∀ pubKeyHash, ∃ stranger, hashPubKey crypto stranger ≠ pubKeyHash ∧
      Signs made stranger)
    (hcoinbase : tx.isCoinbase = false)
    (hnames : ∀ vin ∈ tx.vin, (namedOutput prevTXs vin).isSome) :
    ∃ tx' : Transaction, tx'.trimmedCopy = tx.trimmedCopy ∧
      tx'.verify crypto prevTXs = some true ∧ ∀ vin ∈ tx'.vin, ∀ out,
        namedOutput prevTXs vin = some out → vin.usesKey crypto out.pubKeyHash = false := by
  choose stranger hforeign hsigns using hstranger
  choose! sign hsign using hsigns
  let outs : Nat → TXOutput := fun i =>
    ((tx.vin[i]?.bind (namedOutput prevTXs)).getD ⟨0, []⟩)
  let keys : Nat → Bytes := fun i => stranger (outs i).pubKeyHash
  let signatures : Nat → Bytes := fun i => sign (outs i).pubKeyHash (tx.signedData i (outs i))
  have hfilled : ∀ i vin, (tx.filled keys signatures).vin[i]? = some vin →
      namedOutput prevTXs vin = some (outs i) ∧ vin.pubKey = keys i ∧
        vin.signature = signatures i := by
    intro i vin hvin
    obtain ⟨old, hold, rfl⟩ := Transaction.vin_filled hvin
    refine ⟨?_, rfl, rfl⟩
    obtain ⟨out, hout⟩ := Option.isSome_iff_exists.mp (hnames old (List.mem_of_getElem? hold))
    have hat : outs i = out := by
      change ((tx.vin[i]?.bind (namedOutput prevTXs)).getD ⟨0, []⟩) = out
      rw [hold, Option.bind_some, hout, Option.getD_some]
    rw [hat]
    exact hout
  have htrimmed := Transaction.trimmedCopy_filled tx keys signatures
  have hpoints := outpoints_of_trimmedCopy htrimmed
  refine ⟨tx.filled keys signatures, htrimmed, ?_, ?_⟩
  · refine (Transaction.verify_eq_true
      ((isCoinbase_of_outpoints hpoints).trans hcoinbase)).mpr fun i vin hvin => ?_
    obtain ⟨hnamed, hkey, hsignature⟩ := hfilled i vin hvin
    refine ⟨outs i, hnamed, (hmade _ _ _ _).mpr ?_⟩
    rw [Transaction.rawPubKey, hkey, hsignature, Transaction.signedData, htrimmed]
    exact hsign _ _
  · intro vin hvin out hout
    obtain ⟨i, hi⟩ := List.mem_iff_getElem?.mp hvin
    obtain ⟨hnamed, hkey, _⟩ := hfilled i vin hi
    obtain rfl := Option.some.inj (hnamed.symm.trans hout)
    rw [TXInput.usesKey, hkey]
    exact decide_eq_false (hforeign _)

/-- Spends of the same outputs to the same new ones are all authorized only where there is
nothing to spend. -/
theorem authorized_iff (hhash : Function.Injective (hashPubKey crypto))
    (hmade : ∀ key data r s, crypto.ecdsaVerify key data r s = true ↔ made key data r s)
    {key other : Bytes} (hne : key ≠ other) (hkey : Signs made key) (hother : Signs made other)
    (hcoinbase : tx.isCoinbase = false) :
    (∀ tx' : Transaction, tx'.trimmedCopy = tx.trimmedCopy → Authorized crypto tx' prevTXs) ↔
      tx.vin = [] ∨ ∃ vin ∈ tx.vin, namedOutput prevTXs vin = none := by
  constructor
  · intro hall
    by_contra hspends
    rw [not_or] at hspends
    have hnames : ∀ vin ∈ tx.vin, (namedOutput prevTXs vin).isSome := fun vin hvin =>
      Option.isSome_iff_ne_none.mpr fun hnone => hspends.2 ⟨vin, hvin, hnone⟩
    obtain ⟨tx', htrimmed, hverified, hforeign⟩ :=
      exists_theft hmade (exists_stranger hhash hne hkey hother) hcoinbase hnames
    have hnonempty : tx'.vin ≠ [] := by
      intro hnil
      have hpoints := outpoints_of_trimmedCopy htrimmed
      rw [hnil, List.map_nil] at hpoints
      exact hspends.1 (List.map_eq_nil_iff.mp hpoints.symm)
    obtain ⟨vin, hvin⟩ := List.exists_mem_of_ne_nil _ hnonempty
    obtain ⟨out, hnamed, huses⟩ := hall tx' htrimmed hverified vin hvin
    rw [hforeign vin hvin out hnamed] at huses
    cases huses
  · intro hnone tx' htrimmed hverified
    have hpoints := outpoints_of_trimmedCopy htrimmed
    rcases hnone with hnil | ⟨vin, hvin, hnone⟩
    · rw [hnil, List.map_nil, List.map_eq_nil_iff] at hpoints
      intro vin hvin
      rw [hpoints] at hvin
      cases hvin
    · have hmem : outpoint vin ∈ tx'.vin.map outpoint := by
        rw [hpoints]
        exact List.mem_map_of_mem hvin
      obtain ⟨vin', hvin', hsame⟩ := List.mem_map.mp hmem
      obtain ⟨hid, hvout⟩ := Prod.mk.inj hsame
      obtain ⟨i, hi⟩ := List.mem_iff_getElem?.mp hvin'
      obtain ⟨out, hnamed, _⟩ := (Transaction.verify_eq_true
        ((isCoinbase_of_outpoints hpoints).trans hcoinbase)).mp hverified i vin' hi
      rw [namedOutput, hid, hvout] at hnamed
      rw [namedOutput, hnamed] at hnone
      cases hnone

end Signers

section Theft

/-! Keys and signatures of an example: a private key is its own public key, and signs
with itself and the last byte of the length of the text. -/

def exampleMade (key : PublicKey) (data : String) (r s : Nat) : Prop :=
  key.x = key.y ∧ r = key.x ∧ s = data.utf8ByteSize % 256

instance (key : PublicKey) (data : String) (r s : Nat) :
    Decidable (exampleMade key data r s) :=
  inferInstanceAs (Decidable (_ ∧ _))

def exampleCrypto : Crypto where
  sha256 := id
  ripemd160 := id
  ecdsaVerify key data r s := exampleMade key data r s
  serialize tx := tx.id

def lockedTX : Transaction := ⟨[1], [⟨[], -1, [], []⟩], [⟨10, [9, 9]⟩]⟩

def lockedTXs (txid : Bytes) : Option Transaction :=
  if txid = [1] then some lockedTX else none

/-- The key `9` spends the output that it locks. -/
def ownerSpend : Transaction :=
  ⟨[2], [⟨[1], 0, [9, 83], [9, 9]⟩], [⟨10, [5, 5]⟩]⟩

def theft : Transaction :=
  ⟨[2], [⟨[1], 0, [7, 83], [7, 7]⟩], [⟨10, [5, 5]⟩]⟩

theorem example_made (key : PublicKey) (data : String) (r s : Nat) :
    exampleCrypto.ecdsaVerify key data r s = true ↔ exampleMade key data r s :=
  decide_eq_true_iff

theorem utf8Size_hexDigit {n : Nat} (h : n < 16) : (hexDigit n).utf8Size = 1 := by
  revert h n
  decide

theorem utf8ByteSize_encodeToString (bytes : Bytes) :
    (encodeToString bytes).utf8ByteSize = 2 * bytes.length := by
  induction bytes with
  | nil => rfl
  | cons b bytes ih =>
      have happend : encodeToString (b :: bytes) =
          String.singleton (hexDigit (b.toNat / 16)) ++
            String.singleton (hexDigit (b.toNat % 16)) ++ encodeToString bytes := by
        simp [encodeToString, ← String.toList_inj]
      have hhigh : b.toNat / 16 < 16 := by
        have := b.toNat_lt
        omega
      rw [happend, String.utf8ByteSize_append, String.utf8ByteSize_append,
        String.utf8ByteSize_singleton, String.utf8ByteSize_singleton, ih,
        utf8Size_hexDigit hhigh, utf8Size_hexDigit (Nat.mod_lt _ (by decide)),
        List.length_cons]
      omega

theorem signedData_ownerSpend : (ownerSpend.signedData 0 ⟨10, [9, 9]⟩).utf8ByteSize = 339 := by
  rw [Transaction.signedData, Transaction.sprintf, String.utf8ByteSize_append,
    utf8ByteSize_encodeToString]
  decide +kernel

/-- The signed text shows the locking key in place of the key of the input. -/
theorem signedData_theft (out : TXOutput) :
    theft.signedData 0 out = ownerSpend.signedData 0 out :=
  congrArg Transaction.sprintf rfl

theorem verify_theft : theft.verify exampleCrypto lockedTXs = some true := by
  refine Transaction.verify_single (by decide) rfl
    (show namedOutput lockedTXs _ = some ⟨10, [9, 9]⟩ from rfl) ?_
  rw [example_made, exampleMade, signedData_theft, signedData_ownerSpend]
  decide

theorem signs_example (b : UInt8) : Signs exampleMade [b, b] := by
  intro data
  refine ⟨[b, UInt8.ofNat data.utf8ByteSize], ?_⟩
  simp [exampleMade, Transaction.halves, setBytes]

/-- The keys `7` and `9` can both spend the output that `9` locks. -/
theorem authorized_lockedTX : ¬ ∀ tx' : Transaction,
    tx'.trimmedCopy = ownerSpend.trimmedCopy → Authorized exampleCrypto tx' lockedTXs := by
  have hhash : Function.Injective (hashPubKey exampleCrypto) := Function.injective_id
  exact (authorized_iff hhash example_made (by decide) (signs_example 7)
    (signs_example 9) (by decide)).not.mpr (by decide +kernel)

theorem unauthorized : ¬ ∀ (crypto : Crypto) (made : PublicKey → String → Nat → Nat → Prop),
    Function.Injective (hashPubKey crypto) →
    (∀ key data r s, crypto.ecdsaVerify key data r s = true ↔ made key data r s) →
    ∀ (tx : Transaction) (prevTXs : Bytes → Option Transaction), tx.isCoinbase = false →
      (∀ vin ∈ tx.vin, ∃ prevTx, prevTXs vin.txid = some prevTx ∧ prevTx.id = vin.txid) →
      Authorized crypto tx prevTXs := by
  intro h
  have hholds : ∀ vin ∈ theft.vin, ∃ prevTx, lockedTXs vin.txid = some prevTx ∧
      prevTx.id = vin.txid := by
    intro vin hmem
    obtain rfl := List.mem_singleton.mp hmem
    exact ⟨lockedTX, rfl, rfl⟩
  obtain ⟨out, hnamed, hkey⟩ := h exampleCrypto exampleMade Function.injective_id
    example_made theft lockedTXs (by decide) hholds verify_theft
    ⟨[1], 0, [7, 83], [7, 7]⟩ (List.mem_singleton_self _)
  obtain rfl : ⟨10, [9, 9]⟩ = out := Option.some.inj hnamed
  exact absurd hkey (by decide)

end Theft

end BlockchainTutorial.Bitcoin
