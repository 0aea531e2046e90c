import BlockchainTutorial.Lib.Decimal
import BlockchainTutorial.Bitcoin.DataChain
import BlockchainTutorial.Bitcoin.Wire

namespace BlockchainTutorial.Bitcoin.PrototypeChain

open DataChain (Addition Digest mixedDigest)

/-! The chain of `01-基本原型`. The hash of a block is made once, and there is nothing between
the data and the digits of the time. -/

structure Block where
  timestamp : BitVec 64
  data : Bytes
  prevBlockHash : Bytes
  hash : Bytes
  deriving DecidableEq

def timestampText (block : Block) : Bytes :=
  ascii (Lib.itoa block.timestamp)

def headers (block : Block) : Bytes :=
  block.prevBlockHash ++ block.data ++ timestampText block

abbrev Blockchain := List Block

section Chain

variable (sha256 : Bytes → Digest)

def setHash (b : Block) : Block :=
  { b with hash := (sha256 (headers b)).toList }

def newBlock (timestamp : BitVec 64) (data : String) (prevBlockHash : Bytes) : Block :=
  setHash sha256 ⟨timestamp, data.toUTF8.data.toList, prevBlockHash, []⟩

def newGenesisBlock (timestamp : BitVec 64) : Block :=
  newBlock sha256 timestamp "Genesis Block" []

def addBlock (bc : Blockchain) (addition : Addition) : Option Blockchain :=
  bc.getLast?.map fun prevBlock =>
    bc ++ [newBlock sha256 addition.1 addition.2 prevBlock.hash]

def newBlockchain (timestamp : BitVec 64) : Blockchain :=
  [newGenesisBlock sha256 timestamp]

end Chain

abbrev ChainRun (sha256 : Bytes → Digest) (timestamp : BitVec 64) :=
  Lib.Run (newBlockchain sha256 timestamp) (addBlock sha256)

/-- What a block says itself. -/
def joined (block : Block) : Bytes :=
  block.data ++ timestampText block

def content (block : Block) : Bytes × Bytes :=
  (block.prevBlockHash, joined block)

def prevOf (block : Block) : Option Bytes :=
  if block.prevBlockHash = [] then none else some block.prevBlockHash

/-- The blocks that have no block before them are genesis blocks, made after 1970. -/
structure Right (sha256 : Bytes → Digest) (block : Block) : Prop where
  hash : block.hash = (sha256 (headers block)).toList
  prev : (block.prevBlockHash = [] ∧ block.data = "Genesis Block".toUTF8.data.toList ∧
    0 ≤ block.timestamp.toInt) ∨ block.prevBlockHash.length = 32

structure ChainRight (sha256 : Bytes → Digest) (bc : Blockchain) : Prop where
  linked : Lib.HashChain Block.hash prevOf bc.reverse
  blocks : ∀ block ∈ bc, Right sha256 block

section Chains

variable {sha256 : Bytes → Digest} {bc bc' : Blockchain}

theorem chainRight_new {timestamp : BitVec 64} (htime : 0 ≤ timestamp.toInt) :
    ChainRight sha256 (newBlockchain sha256 timestamp) :=
  ⟨.genesis rfl, List.forall_mem_singleton.mpr ⟨rfl, .inl ⟨rfl, rfl, htime⟩⟩⟩

theorem ChainRight.add (h : ChainRight sha256 bc) {addition : Addition}
    (hadd : addBlock sha256 bc addition = some bc') : ChainRight sha256 bc' := by
  obtain ⟨prevBlock, hlast, rfl⟩ := Option.map_eq_some_iff.mp hadd
  have hprev := h.blocks prevBlock (List.mem_of_getLast? hlast)
  have hlength : prevBlock.hash.length = 32 := by
    rw [hprev.hash, Vector.length_toList]
  have hnonempty : prevBlock.hash ≠ [] := by
    rintro hempty
    rw [hempty] at hlength
    cases hlength
  exact ⟨h.linked.append hlast (if_neg hnonempty), List.forall_mem_append.mpr ⟨h.blocks,
    List.forall_mem_singleton.mpr ⟨rfl, .inr hlength⟩⟩⟩

theorem chainRight_run {timestamp : BitVec 64} (htime : 0 ≤ timestamp.toInt)
    (run : ChainRun sha256 timestamp) :
    ∀ k, k ≤ run.length → ChainRight sha256 (run.state k) :=
  run.invariant (chainRight_new htime) fun _ _ _ h hadd => h.add hadd

/-! The digits of the time. -/

theorem length_timestampText (block : Block) : 1 ≤ (timestampText block).length := by
  rw [timestampText, ascii, List.length_map, Lib.itoa]
  cases block.timestamp.toInt with
  | ofNat n => exact Nat.length_repr_pos
  | negSucc n => exact Nat.succ_le_of_lt (by simp [Int.repr])

theorem length_timestampText_le {block : Block} (h : 0 ≤ block.timestamp.toInt) :
    (timestampText block).length ≤ 19 := by
  rw [timestampText, ascii, List.length_map, Lib.itoa]
  have hlt := BitVec.toInt_lt (x := block.timestamp)
  cases htime : block.timestamp.toInt with
  | ofNat n =>
      rw [htime] at hlt
      have hnat : n < 2 ^ 63 := Int.ofNat_lt.mp hlt
      exact (Nat.length_repr_le_iff (by decide)).mpr (Nat.lt_trans hnat (by decide))
  | negSucc n =>
      rw [htime] at h
      cases h

/-- The headers of the genesis block are shorter than those of any other block. -/
theorem headers_inj {block block' : Block} (h : Right sha256 block) (h' : Right sha256 block')
    (heq : headers block = headers block') :
    block.prevBlockHash = block'.prevBlockHash ∧ joined block = joined block' := by
  have hgenesis : "Genesis Block".toUTF8.data.toList.length = 13 := by decide
  have hpos := length_timestampText block
  have hpos' := length_timestampText block'
  have hlength := congrArg List.length heq
  simp only [headers, List.length_append] at hlength
  have hjoined : block.prevBlockHash ++ joined block = block'.prevBlockHash ++ joined block' := by
    rwa [joined, joined, ← List.append_assoc, ← List.append_assoc]
  rcases h.prev with ⟨hempty, hdata, htime⟩ | hlong
  · rcases h'.prev with ⟨hempty', _, _⟩ | hlong'
    · exact List.append_inj hjoined (by rw [hempty, hempty'])
    · have hle := length_timestampText_le htime
      rw [hempty, hdata, hlong', hgenesis, List.length_nil] at hlength
      omega
  · rcases h'.prev with ⟨hempty', hdata', htime'⟩ | hlong'
    · have hle := length_timestampText_le htime'
      rw [hempty', hdata', hlong, hgenesis, List.length_nil] at hlength
      omega
    · exact List.append_inj hjoined (hlong.trans hlong'.symm)

theorem prevOf_eq {block block' : Block} (h : prevOf block = prevOf block') :
    block.prevBlockHash = block'.prevBlockHash := by
  unfold prevOf at h
  split at h
  · rename_i hempty
    split at h
    · rename_i hempty'
      rw [hempty, hempty']
    · cases h
  · split at h
    · cases h
    · exact Option.some.inj h

theorem hash_eq {block block' : Block} (h : Right sha256 block) (h' : Right sha256 block')
    (hprev : prevOf block = prevOf block') (hjoined : joined block = joined block') :
    block.hash = block'.hash := by
  have hheaders : headers block = headers block' := by
    rw [headers, headers, List.append_assoc, List.append_assoc, prevOf_eq hprev]
    exact congrArg _ hjoined
  rw [h.hash, h'.hash, hheaders]

end Chains

def tipHash (bc : Blockchain) : Option Bytes :=
  bc.getLast?.map Block.hash

/-- The hash of the last block fixes the data and the time of every block only together: two
chains have it in common just when their blocks have the same data followed by the digits of
the time, if no two of the headers collide. -/
theorem tip_fixes_joined {sha256 : Bytes → Digest} {timestamp timestamp' : BitVec 64}
    (run : ChainRun sha256 timestamp) (run' : ChainRun sha256 timestamp')
    (htime : 0 ≤ timestamp.toInt) (htime' : 0 ≤ timestamp'.toInt)
    (hfree : ∀ block ∈ run.state run.length, ∀ block' ∈ run'.state run'.length,
      sha256 (headers block) = sha256 (headers block') → headers block = headers block') :
    tipHash (run.state run.length) = tipHash (run'.state run'.length) ↔
      (run.state run.length).map joined = (run'.state run'.length).map joined := by
  have hright := chainRight_run htime run _ (Nat.le_refl _)
  have hright' := chainRight_run htime' run' _ (Nat.le_refl _)
  constructor
  · intro htip
    have hcontent : ∀ block ∈ run.state run.length, ∀ block' ∈ run'.state run'.length,
        block.hash = block'.hash → content block = content block' := by
      intro block hblock block' hblock' hhash
      have hsealed := hright.blocks block hblock
      have hsealed' := hright'.blocks block' hblock'
      rw [hsealed.hash, hsealed'.hash] at hhash
      obtain ⟨hprev, hjoined⟩ := headers_inj hsealed hsealed'
        (hfree block hblock block' hblock' (Vector.toList_inj.mp hhash))
      exact Prod.ext hprev hjoined
    have hprev : ∀ block ∈ run.state run.length, ∀ block' ∈ run'.state run'.length,
        content block = content block' → prevOf block = prevOf block' := by
      intro block _ block' _ hsame
      have hfirst : block.prevBlockHash = block'.prevBlockHash := congrArg Prod.fst hsame
      rw [prevOf, prevOf, hfirst]
    have hsame := congrArg (List.map Prod.snd)
      (hright.linked.content_eq_of_last content hright'.linked hcontent hprev htip)
    rwa [List.map_map, List.map_map] at hsame
  · exact hright.linked.last_digest_eq joined hright'.linked fun block hblock block' hblock' =>
      hash_eq (hright.blocks block hblock) (hright'.blocks block' hblock')

section Example

def earlyRun : ChainRun mixedDigest 0 :=
  .ofActions [(9, "Pay 2")] rfl

/-- The last digit of the data is the first digit of the time in the other run. -/
def lateRun : ChainRun mixedDigest 0 :=
  .ofActions [(29, "Pay ")] rfl

theorem tip_fixes_joined_pay :
    tipHash (earlyRun.state 1) = tipHash (lateRun.state 1) ∧
      earlyRun.state 1 ≠ lateRun.state 1 := by
  have hfree : ∀ block ∈ earlyRun.state earlyRun.length,
      ∀ block' ∈ lateRun.state lateRun.length,
        mixedDigest (headers block) = mixedDigest (headers block') →
          headers block = headers block' := by
    decide +kernel
  have hjoined : (earlyRun.state earlyRun.length).map joined =
      (lateRun.state lateRun.length).map joined := by
    decide +kernel
  exact ⟨(tip_fixes_joined earlyRun lateRun (by decide) (by decide) hfree).mpr hjoined,
    by decide +kernel⟩

end Example

end BlockchainTutorial.Bitcoin.PrototypeChain
