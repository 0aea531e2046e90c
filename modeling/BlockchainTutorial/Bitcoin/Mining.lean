import Mathlib.Data.Nat.Find
import Mathlib.Logic.Equiv.List
import Mathlib.Tactic.DeriveEncodable
import BlockchainTutorial.Bitcoin.KeyEncoding

namespace BlockchainTutorial.Bitcoin

/-! `Run` and `Validate`, which hash the block on their own, and the block that `NewBlock`
fills in between them. -/

namespace ProofOfWork

def validate (crypto : Crypto) (block : Block) : Option Bool :=
  (prepareData crypto block block.nonce).map fun data =>
    decide (setBytes (crypto.sha256 data) < target)

/-- The hash that both compare with the target. -/
def powHash (crypto : Crypto) (block : Block) (nonce : Int) : Option Bytes :=
  (prepareData crypto block nonce).map crypto.sha256

def Meets (crypto : Crypto) (block : Block) (nonce : Int) : Prop :=
  ∃ hash, powHash crypto block nonce = some hash ∧ setBytes hash < target

/-- The least nonce that meets the target, and its hash. -/
structure Least (crypto : Crypto) (block : Block) (nonce : Nat) (hash : Bytes) : Prop where
  bound : nonce < maxNonce
  hash_eq : powHash crypto block nonce = some hash
  meets : setBytes hash < target
  least : ∀ lower : Nat, lower < nonce → ¬ Meets crypto block lower

variable {crypto : Crypto} {block : Block}

theorem powHash_isSome (hroot : (block.hashTransactions crypto).isSome) (nonce : Int) :
    (powHash crypto block nonce).isSome := by
  rw [powHash, prepareData, Option.isSome_map, Option.isSome_map]
  exact hroot

/-- What is filled in after the mining is not hashed. -/
theorem powHash_filled (hash : Bytes) (nonce other : Int) :
    powHash crypto { block with hash, nonce } other = powHash crypto block other := rfl

theorem validate_eq_true_iff :
    validate crypto block = some true ↔ Meets crypto block block.nonce := by
  unfold validate Meets powHash
  cases prepareData crypto block block.nonce with
  | none => exact ⟨nofun, nofun⟩
  | some data =>
      constructor
      · intro h
        exact ⟨_, rfl, of_decide_eq_true (Option.some.inj h)⟩
      · rintro ⟨hash, heq, hlt⟩
        obtain rfl := Option.some.inj heq
        exact congrArg some (decide_eq_true hlt)

/-- One round: the loop ends at a hash below the target. -/
theorem search_succ {nonce : Nat} {hash : Bytes} (hpow : powHash crypto block nonce = some hash)
    (left : Nat) (last : Bytes) :
    search crypto block (left + 1) nonce last =
      if setBytes hash < target then some (nonce, hash)
      else search crypto block left (nonce + 1) hash := by
  obtain ⟨data, hdata, rfl⟩ := Option.map_eq_some_iff.mp hpow
  rw [search, hdata]

/-- None of the nonces below `nonce` meets the target as the loop comes there. -/
theorem search_eq (hroot : (block.hashTransactions crypto).isSome) {nonce : Nat} {hash : Bytes}
    (h : Least crypto block nonce hash) {left start : Nat} (hstart : start ≤ nonce)
    (hleft : nonce < start + left) (last : Bytes) :
    search crypto block left start last = some (nonce, hash) := by
  induction left generalizing start last with
  | zero => omega
  | succ left ih =>
      rcases Nat.eq_or_lt_of_le hstart with rfl | hlt
      · rw [search_succ h.hash_eq, if_pos h.meets]
      · obtain ⟨other, hother⟩ := Option.isSome_iff_exists.mp (powHash_isSome hroot start)
        have hmiss : ¬ setBytes other < target :=
          fun hmeets => h.least start hlt ⟨other, hother, hmeets⟩
        rw [search_succ hother, if_neg hmiss]
        exact ih hlt (by omega) other

theorem run_eq (hroot : (block.hashTransactions crypto).isSome) {nonce : Nat} {hash : Bytes}
    (h : Least crypto block nonce hash) : run crypto block = some (nonce, hash) :=
  search_eq hroot h (Nat.zero_le nonce) (by rw [Nat.zero_add]; exact h.bound) _

theorem exists_least (h : ∃ nonce : Nat, nonce < maxNonce ∧ Meets crypto block nonce) :
    ∃ nonce hash, Least crypto block nonce hash := by
  classical
  obtain ⟨hbound, hash, hhash, hmeets⟩ := Nat.find_spec h
  refine ⟨Nat.find h, hash, hbound, hhash, hmeets, ?_⟩
  intro lower hlower hmeets
  exact Nat.find_min h hlower ⟨Nat.lt_trans hlower hbound, hmeets⟩

/-- `Validate` hashes the same bytes as `Run`, of the block that `NewBlock` has filled in. -/
theorem Least.validate {nonce : Nat} {hash : Bytes} (h : Least crypto block nonce hash) :
    validate crypto { block with hash, nonce } = some true := by
  refine validate_eq_true_iff.mpr ⟨hash, ?_, h.meets⟩
  rw [powHash_filled]
  exact h.hash_eq

end ProofOfWork

/-! `gob` is a parameter: `encode` and `decode` of its package. -/

def Block.serialize (encode : Block → Bytes) (b : Block) : Bytes :=
  encode b

def deserializeBlock (decode : Bytes → Option Block) (d : Bytes) : Option Block :=
  decode d

/-- The block that `NewBlock` mines. -/
def candidate (timestamp : Int) (transactions : List Transaction) (prevBlockHash : Bytes)
    (height : Int) : Block :=
  ⟨timestamp, transactions, prevBlockHash, [], 0, height⟩

theorem newBlock_eq {crypto : Crypto} {timestamp : Int} {transactions : List Transaction}
    {prevBlockHash : Bytes} {height : Int} {nonce : Nat} {hash : Bytes}
    (h : ProofOfWork.run crypto (candidate timestamp transactions prevBlockHash height) =
      some (nonce, hash)) :
    newBlock crypto timestamp transactions prevBlockHash height =
      some ⟨timestamp, transactions, prevBlockHash, hash, nonce, height⟩ :=
  Option.map_eq_some_iff.mpr ⟨(nonce, hash), h, rfl⟩

open ProofOfWork in
theorem mined_block_valid (crypto : Crypto) {encode : Block → Bytes}
    {decode : Bytes → Option Block} (hgob : ∀ block, decode (encode block) = some block)
    (timestamp : Int) (transactions : List Transaction) (prevBlockHash : Bytes) (height : Int)
    (hroot : (newMerkleTree crypto (transactions.map crypto.serialize)).isSome)
    (hmeets : ∃ nonce : Nat, nonce < maxNonce ∧
      Meets crypto (candidate timestamp transactions prevBlockHash height) nonce) :
    ∃ nonce hash mined stored,
      Least crypto (candidate timestamp transactions prevBlockHash height) nonce hash ∧
      run crypto (candidate timestamp transactions prevBlockHash height) =
        some (nonce, hash) ∧
      newBlock crypto timestamp transactions prevBlockHash height = some mined ∧
      mined.nonce = nonce ∧ mined.hash = hash ∧ validate crypto mined = some true ∧
      deserializeBlock decode (mined.serialize encode) = some stored ∧
      validate crypto stored = some true := by
  obtain ⟨nonce, hash, hleast⟩ := exists_least hmeets
  have hitems : ((candidate timestamp transactions prevBlockHash height).hashTransactions
      crypto).isSome := hroot
  have hrun := run_eq hitems hleast
  exact ⟨nonce, hash, _, _, hleast, hrun, newBlock_eq hrun, rfl, rfl, hleast.validate, hgob _,
    hleast.validate⟩

section Example

instance encodableByte : Encodable UInt8 :=
  Encodable.ofLeftInverse UInt8.toNat UInt8.ofNat fun _ => UInt8.ofNat_toNat

deriving instance Encodable for TXInput
deriving instance Encodable for TXOutput
deriving instance Encodable for Transaction
deriving instance Encodable for Block

def encodeBlock (block : Block) : Bytes :=
  bigBytes (Encodable.encode block)

def decodeBlock (d : Bytes) : Option Block :=
  Encodable.decode (setBytes d)

theorem decodeBlock_encodeBlock (block : Block) :
    decodeBlock (encodeBlock block) = some block := by
  rw [decodeBlock, encodeBlock, setBytes_eq, toNat_bigBytes, Lib.ofBigEndian_bigEndian,
    Encodable.encodek]

/-- The hash is below the target when the data end with 3. -/
def thirdCrypto : Crypto where
  sha256 data := List.replicate 32 (if data.getLast? = some 3 then 0 else 255)
  ripemd160 := id
  ecdsaVerify _ _ _ _ := false
  serialize tx := tx.id

open ProofOfWork in
theorem mined_block_valid_third : ∃ nonce hash mined stored,
    Least thirdCrypto (candidate 0 [⟨[1], [⟨[], -1, [], []⟩], [⟨10, [7]⟩]⟩] [] 0) nonce hash ∧
    run thirdCrypto (candidate 0 [⟨[1], [⟨[], -1, [], []⟩], [⟨10, [7]⟩]⟩] [] 0) =
      some (nonce, hash) ∧
    newBlock thirdCrypto 0 [⟨[1], [⟨[], -1, [], []⟩], [⟨10, [7]⟩]⟩] [] 0 = some mined ∧
    mined.nonce = nonce ∧ mined.hash = hash ∧ validate thirdCrypto mined = some true ∧
    deserializeBlock decodeBlock (mined.serialize encodeBlock) = some stored ∧
    validate thirdCrypto stored = some true :=
  mined_block_valid thirdCrypto decodeBlock_encodeBlock 0 _ [] 0 (by decide)
    ⟨3, by decide, _, rfl, by decide⟩

end Example

end BlockchainTutorial.Bitcoin
