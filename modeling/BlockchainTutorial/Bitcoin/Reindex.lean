import BlockchainTutorial.Bitcoin.ChainWalk

namespace BlockchainTutorial.Bitcoin

/-! `Reindex` of `utxo_set.go` on the stored blocks. -/

namespace BlockStore

section Scans

variable {decode : Bytes → Option Block} {store store' : BlockStore} {utxo utxo' : Bucket}

/-- `FindUTXO` returns these outputs. -/
def Scans (decode : Bytes → Option Block) (store : BlockStore) (utxo : Bucket) : Prop :=
  ∃ fuel, store.findUTXO decode fuel = some utxo

/-- `FindUTXO` returns on a chain from the tip to a genesis block only. -/
theorem scans_iff : Scans decode store utxo ↔
    ∃ chain, (store.links decode).Path store.tip chain ∧ utxo = Bitcoin.findUTXO chain := by
  constructor
  · rintro ⟨fuel, hscan⟩
    obtain ⟨chain, hpath, _, hutxo⟩ := Lib.Links.exists_path_of_loop hscan
    exact ⟨chain, hpath, hutxo⟩
  · rintro ⟨chain, hpath, rfl⟩
    exact ⟨chain.length, findUTXO_eq hpath (Nat.le_refl _)⟩

theorem Scans.unique (h : Scans decode store utxo) (h' : Scans decode store utxo') :
    utxo = utxo' := by
  obtain ⟨chain, hpath, rfl⟩ := scans_iff.mp h
  obtain ⟨chain', hpath', rfl⟩ := scans_iff.mp h'
  rw [hpath.unique hpath']

/-- A new block that does not become the tip leaves the chain as it is. -/
theorem Scans.addBlock (h : Scans decode store utxo) {block : Block}
    (hadd : store.addBlock decode block = some store') (htip : store'.tip = store.tip) :
    Scans decode store' utxo := by
  obtain ⟨chain, hpath, hutxo⟩ := scans_iff.mp h
  refine scans_iff.mpr ⟨chain, ?_, hutxo⟩
  rcases addBlock_cases hadd with ⟨_, rfl⟩ | ⟨hnew, _, _, _, hstored⟩
  · exact hpath
  · obtain ⟨hkey, hnone⟩ := contains_eq_false.mp hnew
    have hother : ∀ key stored, store.get decode key = some stored →
        key ≠ lastKey → key ≠ block.hash := by
      rintro key stored hget hne rfl
      rw [get_of_ne hne, hnone] at hget
      cases hget
    rw [htip]
    rcases hstored with ⟨_, rfl⟩ | ⟨_, rfl⟩
    · obtain ⟨first, _, _, hfirst⟩ := hpath.head
      have htip : block.hash = store.tip := htip
      rw [← htip] at hfirst
      exact absurd rfl (hother _ _ hfirst hkey)
    · refine hpath.mono ?_ rfl
      intro key stored hget
      by_cases hne : key = lastKey
      · subst hne
        exact hget
      · have hget' : store.blocks.get key = some stored := by
          have hsame : store.get decode key = store.blocks.get key := get_of_ne hne
          exact hsame.symm.trans hget
        rw [links_get_of_ne hne, Lib.Mapping.get_set_of_ne _ _ (hother _ _ hget hne), hget']

end Scans

/-- The three steps, with no other in between. -/
def reindex (decode : Bytes → Option Block) (fuel : Nat) (store : BlockStore) :
    Option Bucket :=
  (store.findUTXO decode fuel).bind (UTXOSet.write UTXOSet.cleared)

theorem reindex_eq {decode : Bytes → Option Block} {fuel : Nat} {store : BlockStore}
    {chain : Chain} (hpath : (store.links decode).Path store.tip chain)
    (hfuel : chain.length ≤ fuel) : store.reindex decode fuel = Bitcoin.reindex chain := by
  rw [reindex, findUTXO_eq hpath hfuel, Option.bind_some]
  rfl

theorem reindex_get {decode : Bytes → Option Block} {fuel : Nat} {store : BlockStore}
    {bucket : Bucket} (h : store.reindex decode fuel = some bucket) :
    ∃ utxo, store.findUTXO decode fuel = some utxo ∧ ∀ id, bucket.get id = utxo.get id := by
  obtain ⟨utxo, hscan, hwrite⟩ := Option.bind_eq_some_iff.mp h
  refine ⟨utxo, hscan, fun id => ?_⟩
  rw [UTXOSet.write_get hwrite]
  exact Option.or_none

end BlockStore

end BlockchainTutorial.Bitcoin
