import BlockchainTutorial.ProofOfStake.BlockRecord

namespace BlockchainTutorial.DelegatedProofOfStake

open BlockchainTutorial.ProofOfStake (encodeToString runeText Record)

/-! The blocks of `delegated-proof-of-stake/main.go`. -/

structure Block where
  index : Int
  timestamp : String
  bpm : Int
  hash : String
  prevHash : String
  delegate : String
  deriving DecidableEq, Repr, Inhabited

variable (sha256 : String → List UInt8)

def createBlockHash (block : Block) : String :=
  encodeToString (sha256
    (runeText block.index ++ block.timestamp ++ runeText block.bpm ++ block.prevHash))

def generateBlock (oldBlock : Block) (timestamp : String) (bpm : Int) (address : String) :
    Block :=
  let newBlock : Block :=
    ⟨oldBlock.index + 1, timestamp, bpm, "", oldBlock.hash, ""⟩
  { newBlock with hash := createBlockHash sha256 newBlock, delegate := address }

/-- Unlike the check of the other program, this one does not look at the hash. -/
def isBlockValid (newBlock oldBlock : Block) : Bool :=
  if oldBlock.index + 1 ≠ newBlock.index then false
  else if newBlock.prevHash ≠ oldBlock.hash then false
  else true

def Block.record (block : Block) : Record :=
  ⟨block.index, block.timestamp, block.bpm, block.prevHash⟩

def Block.SameFields (block copy : Block) : Prop :=
  block.index = copy.index ∧ block.timestamp = copy.timestamp ∧ block.bpm = copy.bpm ∧
    block.prevHash = copy.prevHash ∧ block.delegate = copy.delegate

instance (block copy : Block) : Decidable (block.SameFields copy) :=
  inferInstanceAs (Decidable (_ ∧ _ ∧ _ ∧ _ ∧ _))

variable {sha256}

theorem createBlockHash_eq (block : Block) :
    createBlockHash sha256 block = encodeToString (sha256 block.record.text) := rfl

theorem isBlockValid_iff {newBlock oldBlock : Block} :
    isBlockValid newBlock oldBlock = true ↔
      oldBlock.index + 1 = newBlock.index ∧ newBlock.prevHash = oldBlock.hash := by
  unfold isBlockValid
  split
  · rename_i hindex
    exact ⟨nofun, fun h => absurd h.1 hindex⟩
  · split
    · rename_i hhash
      exact ⟨nofun, fun h => absurd h.2 hhash⟩
    · rename_i hindex hhash
      exact ⟨fun _ => ⟨not_not.mp hindex, not_not.mp hhash⟩, fun _ => rfl⟩

theorem generateBlock_valid (oldBlock : Block) (timestamp : String) (bpm : Int)
    (address : String) :
    isBlockValid (generateBlock sha256 oldBlock timestamp bpm address) oldBlock = true :=
  isBlockValid_iff.mpr ⟨rfl, rfl⟩

/-- Every block is accepted after some other one. -/
theorem exists_isBlockValid (block : Block) :
    ∃ oldBlock, isBlockValid block oldBlock = true := by
  refine ⟨⟨block.index - 1, "", 0, block.prevHash, "", ""⟩, ?_⟩
  exact isBlockValid_iff.mpr ⟨Int.sub_add_cancel block.index 1, rfl⟩

end BlockchainTutorial.DelegatedProofOfStake
