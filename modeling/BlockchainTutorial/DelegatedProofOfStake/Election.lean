import BlockchainTutorial.Lib.BigEndian
import BlockchainTutorial.DelegatedProofOfStake.Block
import Mathlib.Data.List.Chain
import Mathlib.Data.List.Sort

namespace BlockchainTutorial.DelegatedProofOfStake

/-! The election of `delegated-proof-of-stake/main.go`, and the blocks of those who are
elected. -/

structure Trustee where
  name : String
  votes : Nat
  deriving DecidableEq, Repr

def less (a b : Trustee) : Bool :=
  decide (b.votes < a.votes)

/-- What `sort.Sort` promises. It may change the order of equal elements. -/
structure Sorts (sort : List Trustee → List Trustee) : Prop where
  perm : ∀ l, (sort l).Perm l
  sorted : ∀ l, (sort l).Pairwise fun a b => less b a = false

def trusteeList (votes : Fin 12 → Nat) : List Trustee :=
  [⟨"node1", votes 0⟩, ⟨"node2", votes 1⟩, ⟨"node3", votes 2⟩, ⟨"node4", votes 3⟩,
    ⟨"node5", votes 4⟩, ⟨"node6", votes 5⟩, ⟨"node7", votes 6⟩, ⟨"node8", votes 7⟩,
    ⟨"node9", votes 8⟩, ⟨"node10", votes 9⟩, ⟨"node11", votes 10⟩, ⟨"node12", votes 11⟩]

def selectTrustee (sort : List Trustee → List Trustee) (votes : Fin 12 → Nat) : List Trustee :=
  let result := (sort (trusteeList votes)).take 5
  result.drop 1 ++ result.take 1

/-- The turn of a trustee, with the time and the number it draws. -/
structure Turn where
  trustee : Trustee
  timestamp : String
  bpm : Int

section Blocks

variable (sha256 : String → List UInt8)

def genesisBlock (timestamp : String) : Block :=
  ⟨0, timestamp, 0, createBlockHash sha256 ⟨0, "", 0, "", "", ""⟩, "", ""⟩

/-- One pass of the loop. Nothing where there is no last block. -/
def forge (blockChain : List Block) (turn : Turn) : Option (List Block) :=
  blockChain.getLast?.map fun oldBlock =>
    let newBlock := generateBlock sha256 oldBlock turn.timestamp turn.bpm turn.trustee.name
    if isBlockValid newBlock oldBlock then blockChain ++ [newBlock] else blockChain

def run (sort : List Trustee → List Trustee) (votes : Fin 12 → Nat) (timestamp : String)
    (clock : Nat → String) (rand : Nat → Int) : Option (List Block) :=
  let turns := (selectTrustee sort votes).mapIdx fun i trustee => ⟨trustee, clock i, rand i⟩
  turns.foldlM (forge sha256) [genesisBlock sha256 timestamp]

end Blocks

/-! Who is elected. -/

variable {sort : List Trustee → List Trustee}

theorem votes_le_of_sorted {l : List Trustee} (h : l.Pairwise fun a b => less b a = false)
    {k : Nat} {a b : Trustee} (ha : a ∈ l.take k) (hb : b ∈ l.drop k) : b.votes ≤ a.votes := by
  rw [← List.take_append_drop k l, List.pairwise_append] at h
  exact Nat.le_of_not_lt (of_decide_eq_false (h.2.2 a ha b hb))

/-- The five are among the candidates, nobody who is left out has more votes than one of
them, and the one with the most votes comes last. -/
structure Elected (candidates elected : List Trustee) : Prop where
  length : elected.length = 5
  subset : elected ⊆ candidates
  nodup : (elected.map (·.name)).Nodup
  votes : ∀ trustee ∈ elected, ∀ other ∈ candidates, other ∉ elected → other.votes ≤ trustee.votes
  last : ∃ front top, elected = front ++ [top] ∧
    (front.Pairwise fun a b => b.votes ≤ a.votes) ∧ ∀ trustee ∈ front, trustee.votes ≤ top.votes

theorem selectTrustee_perm (sort : List Trustee → List Trustee) (votes : Fin 12 → Nat) :
    (selectTrustee sort votes).Perm ((sort (trusteeList votes)).take 5) := by
  refine List.perm_append_comm.trans ?_
  rw [List.take_append_drop]

theorem selectTrustee_elected (hsort : Sorts sort) (votes : Fin 12 → Nat) :
    Elected (trusteeList votes) (selectTrustee sort votes) := by
  have hperm := selectTrustee_perm sort votes
  have hall := hsort.perm (trusteeList votes)
  have hsorted := hsort.sorted (trusteeList votes)
  have hlength : (sort (trusteeList votes)).length = 12 := hall.length_eq
  refine ⟨?_, ?_, ?_, ?_, ?_⟩
  · rw [hperm.length_eq, List.length_take, hlength]
    rfl
  · exact fun trustee hmem => hall.mem_iff.mp (List.mem_of_mem_take (hperm.mem_iff.mp hmem))
  · have hnames : ((trusteeList votes).map (·.name)).Nodup := by
      simp [trusteeList]
    have htake : (((sort (trusteeList votes)).take 5).map (·.name)).Nodup :=
      ((hall.map _).nodup_iff.mpr hnames).sublist ((List.take_sublist 5 _).map _)
    exact (hperm.map _).nodup_iff.mpr htake
  · intro trustee hmem other hother hout
    refine votes_le_of_sorted hsorted (hperm.mem_iff.mp hmem) ?_
    have hsome := hall.mem_iff.mpr hother
    rw [← List.take_append_drop 5 (sort (trusteeList votes)), List.mem_append] at hsome
    exact hsome.resolve_left fun htake => hout (hperm.mem_iff.mpr htake)
  · rw [selectTrustee]
    cases hsort' : sort (trusteeList votes) with
    | nil => simp [hsort'] at hlength
    | cons top rest =>
        rw [hsort', List.pairwise_cons] at hsorted
        refine ⟨rest.take 4, top, rfl, ?_, fun trustee hmem => ?_⟩
        · exact (hsorted.2.imp fun hless => Nat.le_of_not_lt (of_decide_eq_false hless)).sublist
            (List.take_sublist 4 rest)
        · exact Nat.le_of_not_lt
            (of_decide_eq_false (hsorted.1 trustee (List.mem_of_mem_take hmem)))

/-! What they append. -/

section Blocks

/-- The chain that the program keeps: numbered from the genesis block on, and every block
is accepted after the one before it and has the hash of its fields. -/
structure ChainRight (sha256 : String → List UInt8) (blockChain : List Block) : Prop where
  numbered : ∀ (i : Nat) (block : Block), blockChain[i]? = some block → block.index = i
  linked : blockChain.IsChain fun oldBlock newBlock => isBlockValid newBlock oldBlock = true
  hashed : ∀ block ∈ blockChain.tail, block.hash = createBlockHash sha256 block

variable (sha256 : String → List UInt8)

theorem chainRight_genesis (timestamp : String) :
    ChainRight sha256 [genesisBlock sha256 timestamp] := by
  refine ⟨fun i block hblock => ?_, .singleton _, List.forall_mem_nil _⟩
  cases i with
  | zero =>
      obtain rfl := Option.some.inj hblock
      rfl
  | succ i => cases hblock

variable {sha256}

theorem forge_eq {blockChain : List Block} {oldBlock : Block}
    (hlast : blockChain.getLast? = some oldBlock) (turn : Turn) :
    forge sha256 blockChain turn = some (blockChain ++
      [generateBlock sha256 oldBlock turn.timestamp turn.bpm turn.trustee.name]) := by
  rw [forge, hlast, Option.map_some]
  dsimp only
  rw [if_pos (generateBlock_valid ..)]

theorem ChainRight.generate {blockChain : List Block} (h : ChainRight sha256 blockChain)
    {oldBlock : Block} (hlast : blockChain.getLast? = some oldBlock) (timestamp : String)
    (bpm : Int) (address : String) : ChainRight sha256
      (blockChain ++ [generateBlock sha256 oldBlock timestamp bpm address]) := by
  have hpos : 0 < blockChain.length := by
    cases blockChain with
    | nil => cases hlast
    | cons => exact Nat.succ_pos _
  refine ⟨fun i block hblock => ?_, ?_, ?_⟩
  · rcases Nat.lt_or_ge i blockChain.length with hlt | hge
    · rw [List.getElem?_append_left hlt] at hblock
      exact h.numbered i block hblock
    · rw [List.getElem?_append_right hge] at hblock
      obtain ⟨hi, rfl⟩ := List.getElem?_eq_some_iff.mp hblock
      rw [List.getLast?_eq_getElem?] at hlast
      have hold := h.numbered _ _ hlast
      rw [List.length_singleton] at hi
      rw [List.getElem_singleton, generateBlock]
      dsimp only
      omega
  · rw [List.isChain_append]
    refine ⟨h.linked, .singleton _, fun old hold new hnew => ?_⟩
    obtain rfl := Option.some.inj (hlast.symm.trans hold)
    obtain rfl := Option.some.inj hnew
    exact generateBlock_valid ..
  · rw [List.tail_append_of_ne_nil (List.length_pos_iff.mp hpos)]
    intro block hmem
    rcases List.mem_append.mp hmem with hold | hnew
    · exact h.hashed block hold
    · obtain rfl := List.mem_singleton.mp hnew
      rfl

/-- The whole loop. -/
theorem forge_turns (turns : List Turn) : ∀ {blockChain : List Block} {oldBlock : Block},
    ChainRight sha256 blockChain → blockChain.getLast? = some oldBlock →
    ∃ more, turns.foldlM (forge sha256) blockChain = some (blockChain ++ more) ∧
      ChainRight sha256 (blockChain ++ more) ∧
      more.map (·.delegate) = turns.map (·.trustee.name) := by
  induction turns with
  | nil =>
      intro blockChain oldBlock h _
      refine ⟨[], ?_, ?_, rfl⟩
      · rw [List.append_nil]
        rfl
      · rwa [List.append_nil]
  | cons turn turns ih =>
      intro blockChain oldBlock h hlast
      obtain ⟨more, hmore, hright, hdelegates⟩ :=
        ih (h.generate hlast turn.timestamp turn.bpm turn.trustee.name) List.getLast?_concat
      refine ⟨generateBlock sha256 oldBlock turn.timestamp turn.bpm turn.trustee.name :: more, ?_,
        ?_, congrArg (List.cons turn.trustee.name) hdelegates⟩
      · rw [List.foldlM_cons, forge_eq hlast, Option.bind_eq_bind, Option.bind_some, hmore,
          List.append_assoc, List.singleton_append]
      · rwa [List.append_assoc, List.singleton_append] at hright

variable (sha256)

/-- Whatever votes are drawn, and however the sort orders equal ones, the program elects
five of those with the most votes, and each of them appends one block to a chain that is
right. -/
theorem elected_extend_chain (hsort : Sorts sort) (votes : Fin 12 → Nat) (timestamp : String)
    (clock : Nat → String) (rand : Nat → Int) :
    Elected (trusteeList votes) (selectTrustee sort votes) ∧
      ∃ more, run sha256 sort votes timestamp clock rand =
          some (genesisBlock sha256 timestamp :: more) ∧
        ChainRight sha256 (genesisBlock sha256 timestamp :: more) ∧
        more.map (·.delegate) = (selectTrustee sort votes).map (·.name) := by
  refine ⟨selectTrustee_elected hsort votes, ?_⟩
  obtain ⟨more, hmore, hright, hdelegates⟩ := forge_turns
    ((selectTrustee sort votes).mapIdx fun i trustee => ⟨trustee, clock i, rand i⟩)
    (chainRight_genesis sha256 timestamp) rfl
  refine ⟨more, hmore, hright, hdelegates.trans ?_⟩
  exact List.ext_getElem (by simp) fun i _ _ => by simp

end Blocks

/-! The example sorts as the library does for so few elements. -/

def NotAfter (a b : Trustee) : Prop :=
  b.votes ≤ a.votes

instance (a b : Trustee) : Decidable (NotAfter a b) :=
  inferInstanceAs (Decidable (_ ≤ _))

instance : Std.Total NotAfter :=
  ⟨fun a b => Nat.le_total b.votes a.votes⟩

instance : IsTrans Trustee NotAfter :=
  ⟨fun _ _ _ hab hbc => Nat.le_trans hbc hab⟩

def insertionSort (l : List Trustee) : List Trustee :=
  l.insertionSort NotAfter

theorem sorts_insertionSort : Sorts insertionSort where
  perm l := List.perm_insertionSort NotAfter l
  sorted l := (List.pairwise_insertionSort NotAfter l).imp fun h =>
    decide_eq_false (Nat.not_lt_of_le h)

/-- SHA-256, of the texts of the blocks below. The first character of each is the number
of its block. -/
def laterSha256 (s : String) : List UInt8 :=
  let digests := [0x96a296d224f285c67bee93c30f8a309157f0daa35dc5b87e410b78630a09cfc7,
    0x964567ee958d76e754f6317c357acf94e6ebee41beb2b972046f1dd85f9c4a92,
    0x9aa12463417bd19c28210ab7f073714a9c863d3738d69db6711c93e62a55d889,
    0x6acf39c2d4c07762c6e8303a7a81f8ee0bbc36fcb26849a3c19d96fdb26632af,
    0x686dcd9f5891b43e219d5066e8b6ae237e166d7c5e20882242174cecab7a7a8b,
    0x2cbbcd48d50a72ebe2ab3d9e6a4c7ec14cf528d7df3e286df28eec6824c7a845]
  let index := (s.toList.map Char.toNat).headD 0
  (Lib.bigEndian 256 (digests.getD index 0)).map UInt8.ofNat

theorem elected_extend_chain_by_number :
    Elected (trusteeList fun i => i) (selectTrustee insertionSort fun i => i) ∧
      ∃ more, run laterSha256 insertionSort (fun i => i) "noon" (fun _ => "later")
          (fun i => 60 + i) = some (genesisBlock laterSha256 "noon" :: more) ∧
        ChainRight laterSha256 (genesisBlock laterSha256 "noon" :: more) ∧
        more.map (·.delegate) = ["node11", "node10", "node9", "node8", "node12"] ∧
        more.map (·.index) = [1, 2, 3, 4, 5] ∧ (more.map (·.hash)).Nodup := by
  obtain ⟨helected, more, hrun, hright, hdelegates⟩ := elected_extend_chain laterSha256
    sorts_insertionSort (fun i => i) "noon" (fun _ => "later") fun i => 60 + i
  refine ⟨helected, more, hrun, hright, hdelegates.trans (by decide +kernel), ?_⟩
  have hblocks : (run laterSha256 insertionSort (fun i => i) "noon" (fun _ => "later")
      (fun i => 60 + i)).map (fun blockChain => decide
        (blockChain.tail.map (·.index) = [1, 2, 3, 4, 5] ∧
          (blockChain.tail.map (·.hash)).Nodup)) = some true := by
    decide +kernel
  rw [hrun] at hblocks
  exact of_decide_eq_true (Option.some.inj hblocks)

end BlockchainTutorial.DelegatedProofOfStake
