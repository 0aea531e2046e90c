import BlockchainTutorial.Lib.HashTree
import BlockchainTutorial.Bitcoin.Block

namespace BlockchainTutorial.Bitcoin

/-! The trees that `NewMerkleTree` finishes. -/

def hashNodes (crypto : Crypto) (left right : Bytes) : Bytes :=
  crypto.sha256 (left ++ right)

/-- The last item is taken twice if the number of items is odd. -/
def evened (data : List Bytes) : List Bytes :=
  if data.length % 2 ≠ 0 then data ++ data.getLast?.toList else data

def leafHashes (crypto : Crypto) (data : List Bytes) : List Bytes :=
  (evened data).map crypto.sha256

/-- The root that the tree should have. -/
def merkleRoot (crypto : Crypto) (data : List Bytes) : Option Bytes :=
  Lib.treeRoot (hashNodes crypto) (leafHashes crypto data)

variable (crypto : Crypto)

theorem newLevel_eq (nodes : List Bytes) : newLevel crypto nodes =
    if nodes.length % 2 = 0 then some (Lib.pairUp (hashNodes crypto) nodes) else none := by
  induction nodes using newLevel.induct with
  | case1 => rfl
  | case2 node => rfl
  | case3 left right nodes ih =>
      have hmod : (left :: right :: nodes).length % 2 = nodes.length % 2 := by
        rw [List.length_cons, List.length_cons]
        omega
      rw [newLevel, ih, hmod]
      split <;> rfl

/-- A level of the tree fails if some level below it is odd. -/
theorem newLevels_eq (count : Nat) (nodes : List Bytes) : newLevels crypto count nodes =
    if 2 ^ count ∣ nodes.length then
      some ((Lib.pairUp (hashNodes crypto))^[count] nodes) else none := by
  induction count generalizing nodes with
  | zero =>
      rw [Nat.pow_zero, if_pos (Nat.one_dvd _)]
      rfl
  | succ count ih =>
      rw [newLevels, newLevel_eq]
      by_cases heven : nodes.length % 2 = 0
      · obtain ⟨n, hn⟩ := Nat.dvd_of_mod_eq_zero heven
        have hhalf : (Lib.pairUp (hashNodes crypto) nodes).length = n := by
          rw [Lib.length_pairUp]
          omega
        have hdvd : 2 ^ (count + 1) ∣ nodes.length ↔ 2 ^ count ∣ n := by
          rw [hn, Nat.pow_succ, Nat.mul_comm]
          exact Nat.mul_dvd_mul_iff_left (by decide)
        rw [if_pos heven, Option.bind_some, ih, hhalf]
        by_cases hn : 2 ^ count ∣ n
        · rw [if_pos hn, if_pos (hdvd.mpr hn), Function.iterate_succ_apply]
        · rw [if_neg hn, if_neg fun h => hn (hdvd.mp h)]
      · rw [if_neg heven, if_neg]
        · rfl
        · intro h
          exact heven (Nat.mod_eq_zero_of_dvd ((Nat.dvd_mul_left 2 (2 ^ count)).trans h))

theorem length_leafHashes {data : List Bytes} (h : data ≠ []) :
    (leafHashes crypto data).length = 2 * ((data.length + 1) / 2) := by
  rw [leafHashes, List.length_map, evened]
  split
  · rw [List.length_append, List.getLast?_eq_some_getLast h, Option.toList_some,
      List.length_singleton]
    omega
  · omega

/-- There are as many passes as pairs of items. -/
theorem newMerkleTree_eq {data : List Bytes} (h : data ≠ []) : newMerkleTree crypto data =
    (newLevels crypto ((data.length + 1) / 2) (leafHashes crypto data)).bind List.head? := by
  have hlength := length_leafHashes crypto h
  rw [leafHashes, List.length_map] at hlength
  change (newLevels crypto ((evened data).length / 2) (leafHashes crypto data)).bind _ = _
  rw [hlength, Nat.mul_div_cancel_left _ (by decide)]

theorem two_pow_dvd_iff {count : Nat} (h : 0 < count) : 2 ^ count ∣ 2 * count ↔ count ≤ 2 := by
  constructor
  · intro hdvd
    have hle := Nat.le_of_dvd (by omega) hdvd
    by_contra hlarge
    obtain ⟨n, rfl⟩ := Nat.exists_eq_add_of_le (Nat.lt_of_not_le hlarge)
    have hlt : n < 2 ^ n := Nat.lt_two_pow_self
    rw [Nat.pow_add] at hle
    omega
  · intro hle
    have hcases : count = 1 ∨ count = 2 := by omega
    rcases hcases with rfl | rfl <;> decide

theorem length_leafHashes_of_le {data : List Bytes} (h : data ≠ []) (hsmall : data.length ≤ 4) :
    (leafHashes crypto data).length = 2 ^ ((data.length + 1) / 2) := by
  have hpos := List.length_pos_of_ne_nil h
  have hcases : (data.length + 1) / 2 = 1 ∨ (data.length + 1) / 2 = 2 := by omega
  rw [length_leafHashes crypto h]
  rcases hcases with hcount | hcount
  · rw [hcount]
    rfl
  · rw [hcount]
    rfl

/-- The passes end at a root for at most four items, and fail for more. -/
theorem newMerkleTree_cases {data : List Bytes} (h : data ≠ []) :
    (data.length ≤ 4 ∧ newMerkleTree crypto data = merkleRoot crypto data) ∨
      (4 < data.length ∧ newMerkleTree crypto data = none) := by
  have hpos := List.length_pos_of_ne_nil h
  have hdvd := two_pow_dvd_iff (show 0 < (data.length + 1) / 2 by omega)
  rw [newMerkleTree_eq crypto h, newLevels_eq]
  by_cases hsmall : data.length ≤ 4
  · have hpower := length_leafHashes_of_le crypto h hsmall
    obtain ⟨root, hroot, htree⟩ := Lib.iterate_pairUp_eq (hashNodes crypto) _ hpower
    rw [if_pos (Dvd.intro_left 1 (by rw [hpower, Nat.one_mul])), Option.bind_some, hroot,
      merkleRoot, htree]
    exact .inl ⟨hsmall, rfl⟩
  · rw [length_leafHashes crypto h, if_neg fun hle => absurd (hdvd.mp hle) (by omega)]
    exact .inr ⟨Nat.lt_of_not_le hsmall, rfl⟩

theorem newMerkleTree_eq_some {data : List Bytes} (h : data ≠ []) {root : Bytes}
    (hroot : newMerkleTree crypto data = some root) : data.length ≤ 4 ∧
      (Lib.pairUp (hashNodes crypto))^[(data.length + 1) / 2] (leafHashes crypto data) =
        [root] := by
  rcases newMerkleTree_cases crypto h with ⟨hsmall, heq⟩ | ⟨_, hnone⟩
  · obtain ⟨last, hlast, htree⟩ := Lib.iterate_pairUp_eq (hashNodes crypto) _
      (length_leafHashes_of_le crypto h hsmall)
    rw [heq, merkleRoot, htree] at hroot
    obtain rfl := Option.some.inj hroot
    exact ⟨hsmall, hlast⟩
  · rw [hnone] at hroot
    cases hroot

theorem merkleRoot_isSome {data : List Bytes} (h : data ≠ []) :
    (merkleRoot crypto data).isSome := by
  refine Lib.treeRoot_isSome _ ?_
  rw [← List.length_pos_iff, length_leafHashes crypto h]
  have hpos := List.length_pos_of_ne_nil h
  omega

/-- `NewMerkleTree` returns the root of the tree exactly for one to four items. -/
theorem merkle_root_iff {data : List Bytes} (h : data ≠ []) :
    (∃ root, newMerkleTree crypto data = some root ∧ merkleRoot crypto data = some root) ↔
      data.length ≤ 4 := by
  obtain ⟨root, hroot⟩ := Option.isSome_iff_exists.mp (merkleRoot_isSome crypto h)
  rcases newMerkleTree_cases crypto h with ⟨hsmall, heq⟩ | ⟨hlarge, hnone⟩
  · exact iff_of_true ⟨root, heq.trans hroot, hroot⟩ hsmall
  · refine iff_of_false ?_ (by omega)
    rintro ⟨root, hsome, _⟩
    rw [hnone] at hsome
    cases hsome

theorem newMerkleTree_isSome_iff {data : List Bytes} (h : data ≠ []) :
    (newMerkleTree crypto data).isSome ↔ data.length ≤ 4 := by
  rcases newMerkleTree_cases crypto h with ⟨hsmall, heq⟩ | ⟨hlarge, hnone⟩
  · rw [heq]
    exact iff_of_true (merkleRoot_isSome crypto h) hsmall
  · rw [hnone]
    exact iff_of_false Bool.false_ne_true (by omega)

theorem ProofOfWork.prepareData_isSome_iff {block : Block} (h : block.transactions ≠ [])
    (nonce : Int) :
    (ProofOfWork.prepareData crypto block nonce).isSome ↔ block.transactions.length ≤ 4 := by
  have hitems : block.transactions.map crypto.serialize ≠ [] := by simpa using h
  rw [ProofOfWork.prepareData, Option.isSome_map, Block.hashTransactions,
    newMerkleTree_isSome_iff crypto hitems, List.length_map]

theorem ProofOfWork.search_isSome_iff {block : Block} (h : block.transactions ≠ [])
    {left : Nat} (hleft : 0 < left) (nonce : Nat) (hash : Bytes) :
    (ProofOfWork.search crypto block left nonce hash).isSome ↔
      block.transactions.length ≤ 4 := by
  induction left generalizing nonce hash with
  | zero => exact absurd hleft (Nat.lt_irrefl 0)
  | succ left ih =>
      unfold ProofOfWork.search
      have hdata := ProofOfWork.prepareData_isSome_iff crypto h nonce
      split
      · rename_i hnone
        rw [hnone] at hdata
        exact hdata
      · rename_i data hsome
        rw [hsome] at hdata
        have hsmall := hdata.mp rfl
        dsimp only
        split
        · exact iff_of_true rfl hsmall
        · cases left with
          | zero => exact iff_of_true rfl hsmall
          | succ left => exact ih (Nat.succ_pos left) _ _

/-- A block is made of at most four transactions. -/
theorem newBlock_isSome_iff {timestamp : Int} {transactions : List Transaction}
    (h : transactions ≠ []) {prevBlockHash : Bytes} {height : Int} :
    (newBlock crypto timestamp transactions prevBlockHash height).isSome ↔
      transactions.length ≤ 4 := by
  unfold newBlock
  rw [Option.isSome_map]
  have hnonempty : (⟨timestamp, transactions, prevBlockHash, [], 0, height⟩ :
      Block).transactions ≠ [] := h
  exact ProofOfWork.search_isSome_iff crypto hnonempty (by decide) 0 _

section Example

/-- A hash that writes its text down in brackets. -/
def bracketCrypto : Crypto where
  sha256 data := 40 :: data ++ [41]
  ripemd160 := id
  ecdsaVerify _ _ _ _ := false
  serialize tx := tx.id

theorem merkle_root_three : ∃ root, newMerkleTree bracketCrypto [[1], [2], [3]] = some root ∧
    merkleRoot bracketCrypto [[1], [2], [3]] = some root :=
  (merkle_root_iff bracketCrypto (List.cons_ne_nil _ _)).mpr (by decide)

theorem five_items_panic : ¬ ∀ (crypto : Crypto) (data : List Bytes), data ≠ [] →
    ∃ root, newMerkleTree crypto data = some root ∧ merkleRoot crypto data = some root := by
  intro h
  obtain ⟨root, hroot, _⟩ := h bracketCrypto [[1], [2], [3], [4], [5]] (List.cons_ne_nil _ _)
  exact absurd hroot (by simp [newMerkleTree, newLevels, newLevel])

end Example

end BlockchainTutorial.Bitcoin
