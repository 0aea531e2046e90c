import BlockchainTutorial.Lib.BigEndian
import BlockchainTutorial.Lib.HashChain
import BlockchainTutorial.Lib.Run
import BlockchainTutorial.Bitcoin.Block

namespace BlockchainTutorial.Bitcoin.DataChain

/-! The chain of `02-工作量证明`, whose blocks have texts in place of transactions. -/

abbrev Digest := Vector UInt8 32

structure Block where
  timestamp : BitVec 64
  data : Bytes
  prevBlockHash : Bytes
  hash : Bytes
  nonce : Nat
  deriving DecidableEq

def targetBits : Nat := 24

def target : Nat := 2 ^ (256 - targetBits)

def maxNonce : Nat := 2 ^ 63 - 1

def prepareData (block : Block) (nonce : Nat) : Bytes :=
  block.prevBlockHash ++ block.data ++ intToHex block.timestamp.toInt ++
    intToHex targetBits ++ intToHex nonce

section Chain

variable (sha256 : Bytes → Digest)

/-- The loop of `Run`, with the number of nonces that are left. -/
def search (block : Block) : Nat → Nat → Digest → Nat × Digest
  | 0, nonce, hash => (nonce, hash)
  | left + 1, nonce, _ =>
      let hash := sha256 (prepareData block nonce)
      if setBytes hash.toList < target then (nonce, hash)
      else search block left (nonce + 1) hash

def run (block : Block) : Nat × Digest :=
  search sha256 block maxNonce 0 (.replicate 32 0)

def validate (block : Block) : Bool :=
  setBytes (sha256 (prepareData block block.nonce)).toList < target

def newBlock (timestamp : BitVec 64) (data : String) (prevBlockHash : Bytes) : Block :=
  let block : Block := ⟨timestamp, data.toUTF8.data.toList, prevBlockHash, [], 0⟩
  let found := run sha256 block
  { block with hash := found.2.toList, nonce := found.1 }

def newGenesisBlock (timestamp : BitVec 64) : Block :=
  newBlock sha256 timestamp "Genesis Block" []

/-- The blocks, the oldest first. -/
abbrev Blockchain := List Block

/-- The time of the clock, and the data. -/
abbrev Addition := BitVec 64 × String

def addBlock (bc : Blockchain) (addition : Addition) : Option Blockchain :=
  bc.getLast?.map fun prevBlock =>
    bc ++ [newBlock sha256 addition.1 addition.2 prevBlock.hash]

def newBlockchain (timestamp : BitVec 64) : Blockchain :=
  [newGenesisBlock sha256 timestamp]

end Chain

abbrev ChainRun (sha256 : Bytes → Digest) (timestamp : BitVec 64) :=
  Lib.Run (newBlockchain sha256 timestamp) (addBlock sha256)

/-! The nonce that the hash of a block was made with: the loop counts one more than it has
tried if it finds none. -/

def sealedNonce (block : Block) : Nat :=
  if setBytes block.hash < target then block.nonce else block.nonce - 1

def sealedData (block : Block) : Bytes :=
  prepareData block (sealedNonce block)

/-- What the loop returns. -/
structure Found (sha256 : Bytes → Digest) (block : Block) (last : Nat) (found : Nat × Digest) :
    Prop where
  hash : found.2 = sha256 (prepareData block
    (if setBytes found.2.toList < target then found.1 else found.1 - 1))
  bound : found.1 ≤ last
  missed : ¬ setBytes found.2.toList < target → found.1 = last

section Sealed

variable {sha256 : Bytes → Digest}

theorem search_found (sha256 : Bytes → Digest) (block : Block) (left nonce : Nat) (hash : Digest) :
    Found sha256 block (nonce + left + 1) (search sha256 block (left + 1) nonce hash) := by
  induction left generalizing nonce hash with
  | zero =>
      rw [search]
      split
      · rename_i hhit
        exact ⟨by rw [if_pos hhit], by omega, fun hmiss => absurd hhit hmiss⟩
      · rename_i hmiss
        rw [search]
        exact ⟨by rw [if_neg hmiss, Nat.add_sub_cancel], by omega, fun _ => rfl⟩
  | succ left ih =>
      rw [search]
      split
      · rename_i hhit
        exact ⟨by rw [if_pos hhit], by omega, fun hmiss => absurd hhit hmiss⟩
      · have hnext := ih (nonce + 1) (sha256 (prepareData block nonce))
        rwa [show nonce + 1 + left + 1 = nonce + (left + 1) + 1 by omega] at hnext

theorem run_found (sha256 : Bytes → Digest) (block : Block) :
    Found sha256 block maxNonce (run sha256 block) := by
  have hfound := search_found sha256 block (maxNonce - 1) 0 (.replicate 32 0)
  rwa [show maxNonce - 1 + 1 = maxNonce by decide, Nat.zero_add,
    show maxNonce - 1 + 1 = maxNonce by decide] at hfound

/-- A block as `NewBlock` makes it. -/
structure Sealed (sha256 : Bytes → Digest) (block : Block) : Prop where
  hash : block.hash = (sha256 (sealedData block)).toList
  bound : block.nonce ≤ maxNonce
  missed : ¬ setBytes block.hash < target → block.nonce = maxNonce

theorem newBlock_sealed (timestamp : BitVec 64) (data : String) (prevBlockHash : Bytes) :
    Sealed sha256 (newBlock sha256 timestamp data prevBlockHash) := by
  have hfound := run_found sha256
    ⟨timestamp, data.toUTF8.data.toList, prevBlockHash, [], 0⟩
  exact ⟨congrArg Vector.toList hfound.hash, hfound.bound, hfound.missed⟩

theorem Sealed.validate {block : Block} (h : Sealed sha256 block)
    (hhit : setBytes block.hash < target) : validate sha256 block = true := by
  have hhash := h.hash
  rw [sealedData, sealedNonce, if_pos hhit] at hhash
  rw [DataChain.validate, ← hhash]
  exact decide_eq_true hhit

/-- The blocks that have no block before them have the data of the genesis block. -/
structure Right (sha256 : Bytes → Digest) (block : Block) : Prop where
  made : Sealed sha256 block
  prev : (block.prevBlockHash = [] ∧ block.data = "Genesis Block".toUTF8.data.toList) ∨
    block.prevBlockHash.length = 32

def prevOf (block : Block) : Option Bytes :=
  if block.prevBlockHash = [] then none else some block.prevBlockHash

structure ChainRight (sha256 : Bytes → Digest) (bc : Blockchain) : Prop where
  linked : Lib.HashChain Block.hash prevOf bc.reverse
  blocks : ∀ block ∈ bc, Right sha256 block

theorem chainRight_new (timestamp : BitVec 64) :
    ChainRight sha256 (newBlockchain sha256 timestamp) := by
  refine ⟨.genesis rfl, List.forall_mem_singleton.mpr ⟨newBlock_sealed _ _ _, .inl ⟨rfl, rfl⟩⟩⟩

theorem ChainRight.add {bc bc' : Blockchain} (h : ChainRight sha256 bc) {addition : Addition}
    (hadd : addBlock sha256 bc addition = some bc') : ChainRight sha256 bc' := by
  obtain ⟨prevBlock, hlast, rfl⟩ := Option.map_eq_some_iff.mp hadd
  have hprev := h.blocks prevBlock (List.mem_of_getLast? hlast)
  have hlength : prevBlock.hash.length = 32 := by
    rw [hprev.made.hash, Vector.length_toList]
  have hnonempty : prevBlock.hash ≠ [] := by
    rintro hempty
    rw [hempty] at hlength
    cases hlength
  exact ⟨h.linked.append hlast (if_neg hnonempty), List.forall_mem_append.mpr ⟨h.blocks,
    List.forall_mem_singleton.mpr ⟨newBlock_sealed _ _ _, .inr hlength⟩⟩⟩

theorem chainRight_run {timestamp : BitVec 64} (run : ChainRun sha256 timestamp) :
    ∀ k, k ≤ run.length → ChainRight sha256 (run.state k) :=
  run.invariant (chainRight_new timestamp) fun _ _ _ h hadd => h.add hadd

end Sealed

/-! What is hashed determines a block. -/

theorem intToHex_inj {num num' : Int} (h : intToHex num = intToHex num') :
    BitVec.ofInt 64 num = BitVec.ofInt 64 num' := by
  refine BitVec.eq_of_toNat_eq (Lib.eq_of_digits_eq 256 8 ?_ ?_ fun k hk => ?_)
  · exact (BitVec.ofInt 64 num).isLt
  · exact (BitVec.ofInt 64 num').isLt
  · have hmap := List.map_inj_left.mp h (7 - k) (List.mem_range.mpr (by omega))
    have hbyte := congrArg UInt8.toNat hmap
    rw [UInt8.toNat_ofNat', UInt8.toNat_ofNat', show 7 - (7 - k) = k by omega] at hbyte
    exact hbyte

theorem prepareData_inj {block block' : Block} {nonce nonce' : Nat}
    (hnonce : nonce ≤ maxNonce) (hnonce' : nonce' ≤ maxNonce)
    (h : prepareData block nonce = prepareData block' nonce') :
    block.prevBlockHash ++ block.data = block'.prevBlockHash ++ block'.data ∧
      block.timestamp = block'.timestamp ∧ nonce = nonce' := by
  have hlength (num num' : Int) : (intToHex num).length = (intToHex num').length :=
    (length_intToHex num).trans (length_intToHex num').symm
  obtain ⟨h, hlast⟩ := List.append_inj' h (hlength _ _)
  obtain ⟨h, _⟩ := List.append_inj' h (hlength _ _)
  obtain ⟨h, htime⟩ := List.append_inj' h (hlength _ _)
  refine ⟨h, ?_, ?_⟩
  · have heq := intToHex_inj htime
    rwa [BitVec.ofInt_toInt, BitVec.ofInt_toInt] at heq
  · have heq := congrArg BitVec.toNat (intToHex_inj hlast)
    have hbound : maxNonce < 2 ^ 64 := by decide
    rwa [BitVec.ofInt_natCast, BitVec.ofInt_natCast, BitVec.toNat_ofNat, BitVec.toNat_ofNat,
      Nat.mod_eq_of_lt (by omega), Nat.mod_eq_of_lt (by omega)] at heq

/-- The genesis block has less data than a hash has bytes. -/
theorem prev_inj {sha256 : Bytes → Digest} {block block' : Block} (h : Right sha256 block)
    (h' : Right sha256 block')
    (heq : block.prevBlockHash ++ block.data = block'.prevBlockHash ++ block'.data) :
    block.prevBlockHash = block'.prevBlockHash ∧ block.data = block'.data := by
  have hgenesis : "Genesis Block".toUTF8.data.toList.length = 13 := by decide
  have hlength := congrArg List.length heq
  rw [List.length_append, List.length_append] at hlength
  rcases h.prev with ⟨hempty, hdata⟩ | hlong
  · rcases h'.prev with ⟨hempty', hdata'⟩ | hlong'
    · exact ⟨hempty.trans hempty'.symm, hdata.trans hdata'.symm⟩
    · rw [hempty, hdata, hlong', hgenesis, List.length_nil] at hlength
      omega
  · rcases h'.prev with ⟨hempty', hdata'⟩ | hlong'
    · rw [hempty', hdata', hlong, hgenesis, List.length_nil] at hlength
      omega
    · exact List.append_inj heq (hlong.trans hlong'.symm)

theorem eq_of_sealedData_eq {sha256 : Bytes → Digest} {block block' : Block}
    (h : Right sha256 block) (h' : Right sha256 block') (hhash : block.hash = block'.hash)
    (hdata : sealedData block = sealedData block') : block = block' := by
  have hbound : ∀ block, Right sha256 block → sealedNonce block ≤ maxNonce := by
    intro block hright
    have hle := hright.made.bound
    unfold sealedNonce
    split <;> omega
  obtain ⟨htexts, htime, hsealed⟩ := prepareData_inj (hbound _ h) (hbound _ h') hdata
  obtain ⟨hprev, hsame⟩ := prev_inj h h' htexts
  have hnonce : block.nonce = block'.nonce := by
    unfold sealedNonce at hsealed
    rw [← hhash] at hsealed
    by_cases hhit : setBytes block.hash < target
    · rwa [if_pos hhit, if_pos hhit] at hsealed
    · have hmissed' := h'.made.missed
      rw [← hhash] at hmissed'
      exact (h.made.missed hhit).trans (hmissed' hhit).symm
  cases block
  cases block'
  simp_all

/-! The hash of the last block stands for the whole chain. -/

def tipHash (bc : Blockchain) : Option Bytes :=
  bc.getLast?.map Block.hash

def hashedData (bc : Blockchain) : List Bytes :=
  bc.map sealedData

theorem ChainRight.eq_of_tipHash {sha256 : Bytes → Digest} {bc bc' : Blockchain}
    (h : ChainRight sha256 bc) (h' : ChainRight sha256 bc')
    (hfree : ∀ data ∈ hashedData bc, ∀ data' ∈ hashedData bc', sha256 data = sha256 data' →
      data = data')
    (htip : tipHash bc = tipHash bc') : bc = bc' := by
  have hsame := h.linked.content_eq_of_last id h'.linked ?_ ?_ htip
  · rwa [List.map_id, List.map_id] at hsame
  · intro b hb b' hb' hhash
    have hright := h.blocks b hb
    have hright' := h'.blocks b' hb'
    refine eq_of_sealedData_eq hright hright' hhash (hfree _ (List.mem_map_of_mem hb) _
      (List.mem_map_of_mem hb') ?_)
    rw [hright.made.hash, hright'.made.hash] at hhash
    exact Vector.toList_inj.mp hhash
  · rintro b _ b' _ rfl
    rfl

/-- Two chains that were grown apart from each other are the same just when their last blocks
have the same hash, if no two of the texts that were hashed for their blocks collide. -/
theorem tip_commits {sha256 : Bytes → Digest} {timestamp timestamp' : BitVec 64}
    (run : ChainRun sha256 timestamp) (run' : ChainRun sha256 timestamp')
    (hfree : ∀ data ∈ hashedData (run.state run.length),
      ∀ data' ∈ hashedData (run'.state run'.length), sha256 data = sha256 data' → data = data') :
    tipHash (run.state run.length) = tipHash (run'.state run'.length) ↔
      run.state run.length = run'.state run'.length := by
  constructor
  · exact (chainRight_run run _ (Nat.le_refl _)).eq_of_tipHash
      (chainRight_run run' _ (Nat.le_refl _)) hfree
  · exact fun hsame => congrArg tipHash hsame

section Example

def mixedDigest (data : Bytes) : Digest :=
  (Vector.replicate 32 0).set 31 (data.foldl (fun mixed byte => 3 * mixed + byte) 1)

def ivanRun : ChainRun mixedDigest 1530000000 :=
  .ofActions [(1530000001, "Send 1 BTC to Ivan")] rfl

def ivanTwiceRun : ChainRun mixedDigest 1530000000 :=
  .ofActions [(1530000001, "Send 1 BTC to Ivan"), (1530000002, "Send 2 more BTC to Ivan")] rfl

theorem tip_commits_ivan :
    tipHash (ivanRun.state 1) ≠ tipHash (ivanTwiceRun.state 2) := by
  have hfree : ∀ data ∈ hashedData (ivanRun.state ivanRun.length),
      ∀ data' ∈ hashedData (ivanTwiceRun.state ivanTwiceRun.length),
        mixedDigest data = mixedDigest data' → data = data' := by
    decide +kernel
  have hother : ivanRun.state ivanRun.length ≠ ivanTwiceRun.state ivanTwiceRun.length := by
    decide +kernel
  exact fun htip => hother ((tip_commits ivanRun ivanTwiceRun hfree).mp htip)

end Example

end BlockchainTutorial.Bitcoin.DataChain
