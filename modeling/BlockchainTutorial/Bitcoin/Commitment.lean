import BlockchainTutorial.Lib.Positions
import BlockchainTutorial.Bitcoin.MerkleTree

namespace BlockchainTutorial.Bitcoin

/-! What `prepareData` binds of a block. -/

/-- No two texts of the list have the same hash. -/
def CollisionFree (crypto : Crypto) (texts : List Bytes) : Prop :=
  ∀ text ∈ texts, ∀ other ∈ texts, crypto.sha256 text = crypto.sha256 other → text = other

instance (crypto : Crypto) (texts : List Bytes) : Decidable (CollisionFree crypto texts) :=
  inferInstanceAs (Decidable (∀ text ∈ texts, ∀ other ∈ texts, _ → _))

/-- `Serialize` tells the transactions of the list apart. -/
def SerializedApart (crypto : Crypto) (txs : List Transaction) : Prop :=
  ∀ tx ∈ txs, ∀ other ∈ txs, crypto.serialize tx = crypto.serialize other → tx = other

instance (crypto : Crypto) (txs : List Transaction) : Decidable (SerializedApart crypto txs) :=
  inferInstanceAs (Decidable (∀ tx ∈ txs, ∀ other ∈ txs, _ → _))

/-- The texts that are hashed for the tree: the items, and the pairs of every level. -/
def hashedTexts (crypto : Crypto) (data : List Bytes) : List Bytes :=
  evened data ++ (Lib.pairsBelow (hashNodes crypto) ((data.length + 1) / 2)
    (leafHashes crypto data)).map fun p => p.1 ++ p.2

def Block.hashedTexts (crypto : Crypto) (block : Block) : List Bytes :=
  Bitcoin.hashedTexts crypto (block.transactions.map crypto.serialize)

/-- The blocks have the same of what `AddBlock` and `FindUTXO` read. -/
def Agree (block other : Block) : Prop :=
  block.prevBlockHash = other.prevBlockHash ∧ block.height = other.height ∧
    block.transactions = other.transactions

section Tree

variable {crypto : Crypto} {data data' : List Bytes} {root : Bytes}

theorem evened_take (data : List Bytes) : (evened data).take data.length = data := by
  unfold evened
  split
  · exact List.take_left
  · exact List.take_length

theorem evened_inj (hlength : data.length = data'.length) (h : evened data = evened data') :
    data = data' := by
  rw [← evened_take data, h, hlength, evened_take]

theorem length_leafHash (hsha : ∀ text, (crypto.sha256 text).length = 32) :
    ∀ node ∈ leafHashes crypto data, node.length = 32 := by
  intro node hnode
  obtain ⟨datum, _, rfl⟩ := List.mem_map.mp hnode
  exact hsha datum

theorem length_root (hsha : ∀ text, (crypto.sha256 text).length = 32) (hdata : data ≠ [])
    (hroot : newMerkleTree crypto data = some root) : root.length = 32 := by
  obtain ⟨_, hlast⟩ := newMerkleTree_eq_some crypto hdata hroot
  have hwidth : ∀ node ∈ (Lib.pairUp (hashNodes crypto))^[(data.length + 1) / 2]
      (leafHashes crypto data), node.length = 32 :=
    Lib.forall_iterate_pairUp (fun left right => hsha (left ++ right)) _ (length_leafHash hsha)
  rw [hlast] at hwidth
  exact hwidth root (List.mem_singleton_self root)

theorem length_pairsBelow (hsha : ∀ text, (crypto.sha256 text).length = 32) (count : Nat) :
    ∀ p ∈ Lib.pairsBelow (hashNodes crypto) count (leafHashes crypto data),
      p.1.length = 32 ∧ p.2.length = 32 :=
  Lib.forall_pairsBelow (fun left right => hsha (left ++ right)) _ (length_leafHash hsha)

/-- The root determines the items if their number is known. -/
theorem merkle_binding (hsha : ∀ text, (crypto.sha256 text).length = 32)
    (hfree : CollisionFree crypto (hashedTexts crypto data ++ hashedTexts crypto data'))
    (hdata : data ≠ []) (hlength : data.length = data'.length)
    (hroot : newMerkleTree crypto data = some root)
    (hroot' : newMerkleTree crypto data' = some root) : data = data' := by
  have hdata' : data' ≠ [] := by
    rintro rfl
    exact hdata (List.length_eq_zero_iff.mp hlength)
  obtain ⟨hsmall, hlast⟩ := newMerkleTree_eq_some crypto hdata hroot
  obtain ⟨hsmall', hlast'⟩ := newMerkleTree_eq_some crypto hdata' hroot'
  have hpower := length_leafHashes_of_le crypto hdata hsmall
  have hpower' := length_leafHashes_of_le crypto hdata' hsmall'
  have hleaves : leafHashes crypto data = leafHashes crypto data' := by
    rw [← hlength] at hlast' hpower'
    refine Lib.eq_of_iterate_pairUp_eq (Dvd.intro_left 1 (by rw [hpower, Nat.one_mul]))
      (hpower.trans hpower'.symm) ?_ (hlast.trans hlast'.symm)
    intro p hp p' hp' heq
    have hwidth := length_pairsBelow hsha _ p hp
    have hwidth' := length_pairsBelow hsha _ p' hp'
    have htexts := hfree (p.1 ++ p.2)
      (List.mem_append_left _ (List.mem_append_right _ (List.mem_map_of_mem hp))) (p'.1 ++ p'.2)
      (List.mem_append_right _ (List.mem_append_right _
        (List.mem_map_of_mem (hlength ▸ hp')))) heq
    obtain ⟨hleft, hright⟩ := List.append_inj htexts (hwidth.1.trans hwidth'.1.symm)
    exact Prod.ext hleft hright
  refine evened_inj hlength (Lib.map_inj_on ?_ hleaves)
  intro datum hdatum datum' hdatum' heq
  exact hfree datum (List.mem_append_left _ (List.mem_append_left _ hdatum)) datum'
    (List.mem_append_right _ (List.mem_append_left _ hdatum')) heq

end Tree

section Block

variable {crypto : Crypto} {block other : Block} {nonce nonce' : Int} {data : Bytes}

/-- The bytes come apart into the previous hash, the root and the numbers. -/
theorem prepareData_inj (hsha : ∀ text, (crypto.sha256 text).length = 32)
    (htxs : block.transactions ≠ []) (htxs' : other.transactions ≠ [])
    (h : ProofOfWork.prepareData crypto block nonce = some data)
    (h' : ProofOfWork.prepareData crypto other nonce' = some data) :
    block.prevBlockHash = other.prevBlockHash ∧ ∃ root,
      block.hashTransactions crypto = some root ∧ other.hashTransactions crypto = some root := by
  obtain ⟨root, hroot, rfl⟩ := Option.map_eq_some_iff.mp h
  obtain ⟨root', hroot', heq⟩ := Option.map_eq_some_iff.mp h'
  have hlength := length_root hsha (by simpa using htxs) hroot
  have hlength' := length_root hsha (by simpa using htxs') hroot'
  have heq := (List.append_inj' heq ((length_intToHex _).trans (length_intToHex _).symm)).1
  have heq := (List.append_inj' heq rfl).1
  have heq := (List.append_inj' heq ((length_intToHex _).trans (length_intToHex _).symm)).1
  obtain ⟨hsame, rfl⟩ := List.append_inj' heq (hlength'.trans hlength.symm)
  exact ⟨hsame.symm, root', hroot, hroot'⟩

/-- The work on a block is bound to the transactions if their number is known, and never
to the height. -/
theorem commitment_iff (hsha : ∀ text, (crypto.sha256 text).length = 32)
    (hfree : CollisionFree crypto (block.hashedTexts crypto ++ other.hashedTexts crypto))
    (hserialize : SerializedApart crypto (block.transactions ++ other.transactions))
    (htxs : block.transactions ≠ []) (htxs' : other.transactions ≠ [])
    (h : ProofOfWork.prepareData crypto block nonce = some data)
    (h' : ProofOfWork.prepareData crypto other nonce' = some data) :
    Agree block other ↔ block.height = other.height ∧
      block.transactions.length = other.transactions.length := by
  constructor
  · rintro ⟨_, hheight, hsame⟩
    exact ⟨hheight, congrArg List.length hsame⟩
  · rintro ⟨hheight, hlength⟩
    obtain ⟨hprevious, root, hroot, hroot'⟩ := prepareData_inj hsha htxs htxs' h h'
    have hitems := merkle_binding hsha hfree (by simpa using htxs)
      (by rw [List.length_map, List.length_map, hlength]) hroot hroot'
    refine ⟨hprevious, hheight, Lib.map_inj_on ?_ hitems⟩
    intro tx htx tx' htx' heq
    exact hserialize tx (List.mem_append_left _ htx) tx' (List.mem_append_right _ htx') heq

end Block

section Example

/-- A hash of 32 bytes that shows the length of the text, and a sum of its bytes. -/
def lengthCrypto : Crypto where
  sha256 data := List.replicate 31 (UInt8.ofNat data.length) ++
    [data.foldl (fun sum byte => 31 * sum + byte) 0]
  ripemd160 := id
  ecdsaVerify _ _ _ _ := false
  serialize tx := tx.id

def boundBlock (hash : Bytes) (height : Int) : Block :=
  ⟨0, [⟨[1], [⟨[], -1, [], []⟩], []⟩, ⟨[2, 3], [⟨[1], 0, [], []⟩], []⟩,
    ⟨[4, 5, 6], [⟨[2, 3], 0, [], []⟩], []⟩], [], hash, 0, height⟩

theorem length_lengthCrypto (data : Bytes) : (lengthCrypto.sha256 data).length = 32 := by
  rw [lengthCrypto, List.length_append, List.length_replicate, List.length_singleton]

theorem commitment_boundBlock : Agree (boundBlock [] 1) (boundBlock [2] 1) :=
  (commitment_iff length_lengthCrypto
    (by decide +kernel) (by decide) (List.cons_ne_nil _ _) (List.cons_ne_nil _ _)
    (show ProofOfWork.prepareData lengthCrypto (boundBlock [] 1) 0 = some _ from rfl)
    (show ProofOfWork.prepareData lengthCrypto (boundBlock [2] 1) 0 = _ from rfl)).mpr
    ⟨rfl, rfl⟩

theorem height_unbound : ∃ block other : Block, block.prevBlockHash = [] ∧
    other.prevBlockHash = [] ∧ block.transactions ≠ [] ∧ other.transactions ≠ [] ∧
    (∀ (crypto : Crypto) (nonce : Int), ∃ data,
      ProofOfWork.prepareData crypto block nonce = some data ∧
      ProofOfWork.prepareData crypto other nonce = some data) ∧ ¬ Agree block other := by
  refine ⟨boundBlock [] 1, boundBlock [] 2, rfl, rfl, List.cons_ne_nil _ _,
    List.cons_ne_nil _ _, ?_, ?_⟩
  · intro crypto nonce
    have htxs : (boundBlock [] 1).transactions ≠ [] := List.cons_ne_nil _ _
    obtain ⟨data, hdata⟩ := Option.isSome_iff_exists.mp
      ((ProofOfWork.prepareData_isSome_iff crypto htxs nonce).mpr (by decide))
    exact ⟨data, hdata, hdata⟩
  · rintro ⟨_, hheight, _⟩
    exact absurd hheight (by decide)

end Example

end BlockchainTutorial.Bitcoin
