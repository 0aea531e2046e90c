import BlockchainTutorial.Bitcoin.Amounts
import BlockchainTutorial.Bitcoin.BlockStore

namespace BlockchainTutorial.Bitcoin

/-! The walk from the tip to the genesis block. -/

namespace BlockStore

section Loops

variable {decode : Bytes → Option Block} {store : BlockStore} {chain : List Block} {fuel : Nat}

/-! On a chain that the iterator goes through, the loops are the functions of that chain. -/

theorem findTransaction_eq (h : (store.links decode).Path store.tip chain)
    (hfuel : chain.length ≤ fuel) (id : Bytes) :
    store.findTransaction decode fuel id = some (Bitcoin.findTransaction chain id) := by
  rw [findTransaction, h.loop_eq _ _ hfuel]
  clear h hfuel
  congr 1
  induction chain with
  | nil => rfl
  | cons block chain ih =>
      simp only [Lib.Links.through, Bitcoin.findTransaction, List.findSome?_cons]
      cases hfind : block.transactions.find? fun tx => tx.id = id with
      | none => exact ih
      | some tx => rfl

theorem findUTXO_eq (h : (store.links decode).Path store.tip chain)
    (hfuel : chain.length ≤ fuel) :
    store.findUTXO decode fuel = some (Bitcoin.findUTXO chain) := by
  rw [findUTXO, h.loop_eq _ _ hfuel, Lib.Links.through_foldl]
  rfl

theorem getBlockHashes_eq (h : (store.links decode).Path store.tip chain)
    (hfuel : chain.length ≤ fuel) :
    store.getBlockHashes decode fuel = some (chain.map Block.hash) := by
  rw [getBlockHashes, h.loop_eq _ _ hfuel, Lib.Links.through_foldl]
  have happend : ∀ hashes : List Bytes,
      chain.foldl (fun blocks block => blocks ++ [block.hash]) hashes =
        hashes ++ chain.map Block.hash := by
    clear h hfuel
    induction chain with
    | nil => simp
    | cons block chain ih => simp [ih]
  exact congrArg some (happend [])

end Loops

/-- The iterator goes from the tip through `chain` to a block without `PrevBlockHash`. -/
structure WalksThrough (decode : Bytes → Option Block) (store : BlockStore)
    (chain : List Block) : Prop where
  path : (store.links decode).Path store.tip chain
  all : ∀ hash block, store.blocks.get hash = some block → block ∈ chain
  heights : ∀ i block next, chain[i]? = some block → chain[i + 1]? = some next →
    block.height = next.height + 1

/-- The loops come to an end without a panic. -/
def LoopsEnd (decode : Bytes → Option Block) (store : BlockStore) : Prop :=
  ∃ fuel, (∀ id, (store.findTransaction decode fuel id).isSome) ∧
    (store.findUTXO decode fuel).isSome ∧ (store.getBlockHashes decode fuel).isSome

theorem WalksThrough.loopsEnd {decode : Bytes → Option Block} {store : BlockStore}
    {chain : List Block} (h : WalksThrough decode store chain) : LoopsEnd decode store := by
  refine ⟨chain.length, ?_, ?_, ?_⟩
  · intro id
    rw [findTransaction_eq h.path (Nat.le_refl _)]
    rfl
  · rw [findUTXO_eq h.path (Nat.le_refl _)]
    rfl
  · rw [getBlockHashes_eq h.path (Nat.le_refl _)]
    rfl

/-- The links of the blocks alone, without what is stored under "l". -/
def storedLinks (store : BlockStore) : Lib.Links Bytes Block where
  get := store.blocks.get
  next := Block.next

/-- All blocks are those of one chain, from the tip down to height zero. -/
structure Linked (store : BlockStore) (chain : List Block) : Prop where
  tip : store.tip = store.last
  last : store.last ≠ []
  reserved : store.blocks.get lastKey = none
  path : store.storedLinks.Path store.last chain
  all : ∀ hash block, store.blocks.get hash = some block → block.hash = hash ∧ block ∈ chain
  heights : ∀ (i : Nat) block, chain[i]? = some block → block.height + i + 1 = chain.length

namespace Linked

variable {store : BlockStore} {chain : List Block}

theorem get_eq (h : Linked store chain) (decode : Bytes → Option Block) {key : Bytes}
    {block : Block} (hkey : store.blocks.get key = some block) :
    store.get decode key = some block := by
  rw [get_of_ne]
  · exact hkey
  · rintro rfl
    rw [h.reserved] at hkey
    cases hkey

theorem walksThrough (h : Linked store chain) (decode : Bytes → Option Block) :
    WalksThrough decode store chain := by
  refine ⟨?_, fun hash block hblock => (h.all hash block hblock).2, ?_⟩
  · rw [h.tip]
    exact h.path.mono (fun key block hkey => h.get_eq decode hkey) rfl
  · intro i block next hblock hnext
    have hheight := h.heights i block hblock
    have hheight' := h.heights (i + 1) next hnext
    omega

theorem lastBlock (h : Linked store chain) : ∃ block,
    store.blocks.get store.last = some block ∧ block.height + 1 = chain.length := by
  obtain ⟨block, rest, rfl, hget⟩ := h.path.head
  have hheight := h.heights 0 block rfl
  exact ⟨block, hget, by omega⟩

theorem extend (h : Linked store chain) {block : Block}
    (hnew : store.contains block.hash = false) (hhash : block.hash ≠ [])
    (hprev : block.prevBlockHash = store.last) (hheight : block.height = chain.length) :
    Linked ⟨store.blocks.set block.hash (some block), block.hash, block.hash⟩
      (block :: chain) := by
  obtain ⟨hkey, hfree⟩ := contains_eq_false.mp hnew
  have hkept : ∀ key stored, store.blocks.get key = some stored →
      (store.blocks.set block.hash (some block)).get key = some stored := by
    intro key stored hstored
    rw [Lib.Mapping.get_set_of_ne, hstored]
    rintro rfl
    rw [hfree] at hstored
    cases hstored
  refine ⟨rfl, hhash, ?_, ?_, ?_, ?_⟩
  · rw [Lib.Mapping.get_set_of_ne _ _ (Ne.symm hkey)]
    exact h.reserved
  · refine .cons (Lib.Mapping.get_set_self _ _ _) ?_ (h.path.mono hkept rfl)
    exact (if_neg (hprev ▸ h.last)).trans (congrArg some hprev)
  · intro hash stored hstored
    by_cases heq : hash = block.hash
    · rw [heq, Lib.Mapping.get_set_self] at hstored
      cases hstored
      exact ⟨heq.symm, List.mem_cons_self⟩
    · rw [Lib.Mapping.get_set_of_ne _ _ heq] at hstored
      obtain ⟨hkeyed, hmem⟩ := h.all hash stored hstored
      exact ⟨hkeyed, List.mem_cons_of_mem _ hmem⟩
  · intro i stored hstored
    cases i with
    | zero =>
        cases hstored
        simp [hheight]
    | succ i =>
        have hold := h.heights i stored hstored
        simp only [List.length_cons]
        omega

theorem last_ne (h : Linked store chain) : store.last ≠ lastKey := by
  obtain ⟨lastBlock, hlast, _⟩ := h.lastBlock
  intro heq
  rw [heq, h.reserved] at hlast
  cases hlast

end Linked

/-- A block that comes in is stored already, or comes right after the tip. -/
def Extended (decode : Bytes → Option Block) (store : BlockStore) (block : Block) : Prop :=
  store.contains block.hash = true ∨
    block.prevBlockHash = store.last ∧
      (store.getBestHeight decode).map (· + 1) = some block.height

instance (decode : Bytes → Option Block) (store : BlockStore) (block : Block) :
    Decidable (store.Extended decode block) :=
  inferInstanceAs (Decidable (_ ∨ _))

namespace Linked

variable {store store' : BlockStore} {chain : List Block} {decode : Bytes → Option Block}
  {block : Block}

theorem getBestHeight_eq (h : Linked store chain) {lastBlock : Block}
    (hlast : store.blocks.get store.last = some lastBlock) :
    store.getBestHeight decode = some lastBlock.height := by
  rw [getBestHeight, h.get_eq decode hlast, Option.map_some]

theorem of_extended (h : Linked store chain) (hextends : store.Extended decode block)
    (hnew : store.contains block.hash = false) :
    block.prevBlockHash = store.last ∧ block.height = chain.length := by
  obtain ⟨lastBlock, hlast, hlength⟩ := h.lastBlock
  obtain ⟨hprev, hbest⟩ := hextends.resolve_left (by simp [hnew])
  rw [h.getBestHeight_eq hlast, Option.map_some, Option.some.injEq] at hbest
  exact ⟨hprev, by rw [← hbest, hlength]⟩

theorem height_le (h : Linked store chain) {lastBlock : Block}
    (hlast : store.blocks.get store.last = some lastBlock) {other : Block}
    (hother : other ∈ chain) : other.height ≤ lastBlock.height ∧
      (other.height = lastBlock.height → other = lastBlock) := by
  obtain ⟨first, rest, rfl, hfirst⟩ := h.path.head
  obtain rfl : lastBlock = first := Option.some.inj (hlast.symm.trans hfirst)
  obtain ⟨i, hi⟩ := List.getElem?_of_mem hother
  have hheight := h.heights i other hi
  have hheight' := h.heights 0 lastBlock rfl
  refine ⟨by omega, ?_⟩
  intro heq
  obtain rfl : i = 0 := by omega
  cases hi
  rfl

/-- A stored block is not taken for a new one. -/
theorem not_mem_of_new (h : Linked store chain)
    (hnew : store.contains block.hash = false) : block ∉ chain := by
  intro hmem
  obtain ⟨key, hkey⟩ := h.path.get_of_mem hmem
  have hkey : store.blocks.get key = some block := hkey
  rw [← (h.all key block hkey).1, (contains_eq_false.mp hnew).2] at hkey
  cases hkey

/-- A block that moves the tip and leaves the walk whole comes right after the old tip. -/
theorem extended_of_moved (h : Linked store chain) {lastBlock : Block}
    (hlast : store.blocks.get store.last = some lastBlock)
    (hnew : store.contains block.hash = false) (hprev : block.prevBlockHash ≠ lastKey)
    (hhigher : lastBlock.height < block.height) {chain' : List Block}
    (hwalks : WalksThrough decode
      ⟨store.blocks.set block.hash (some block), block.hash, block.hash⟩ chain') :
    block.prevBlockHash = store.last ∧ block.height = lastBlock.height + 1 := by
  obtain ⟨hkey, hfree⟩ := contains_eq_false.mp hnew
  have hlastKept : (store.blocks.set block.hash (some block)).get store.last =
      some lastBlock := by
    rw [Lib.Mapping.get_set_of_ne, hlast]
    intro heq
    rw [heq, hfree] at hlast
    cases hlast
  have hmem := hwalks.all _ _ hlastKept
  have hheights := hwalks.heights 0
  generalize hstore' : BlockStore.mk (store.blocks.set block.hash (some block)) block.hash
    block.hash = store' at hwalks
  have hpath := hwalks.path
  have htip : store'.tip = block.hash := by
    rw [← hstore']
  have hget : ∀ key, key ≠ lastKey → (store'.links decode).get key =
      (store.blocks.set block.hash (some block)).get key := by
    intro key hne
    rw [links_get_of_ne hne, ← hstore']
  rw [htip] at hpath
  cases hpath with
  | last hfirst =>
      rw [hget _ hkey, Lib.Mapping.get_set_self] at hfirst
      cases hfirst
      obtain rfl := List.mem_singleton.mp hmem
      omega
  | cons hfirst hnext hrest =>
      rw [hget _ hkey, Lib.Mapping.get_set_self] at hfirst
      cases hfirst
      obtain ⟨parent, rest, rfl, hparent⟩ := hrest.head
      have hdrop := hheights block parent rfl rfl
      rw [Block.next_eq_some hnext, hget _ hprev] at hparent
      have hother : block.prevBlockHash ≠ block.hash := by
        intro heq
        rw [heq, Lib.Mapping.get_set_self] at hparent
        cases hparent
        omega
      rw [Lib.Mapping.get_set_of_ne _ _ hother] at hparent
      obtain ⟨hkeyed, hold⟩ := h.all _ _ hparent
      obtain ⟨hle, hsame⟩ := h.height_le hlast hold
      have htop : parent.height = lastBlock.height := by omega
      refine ⟨?_, by omega⟩
      rw [← hkeyed, hsame htop, (h.all _ _ hlast).1]

/-- No other block that is let in leaves the walk whole. -/
theorem addBlock_walks_iff (h : Linked store chain) (hprev : block.prevBlockHash ≠ lastKey)
    (hadd : store.addBlock decode block = some store') :
    (∃ chain', WalksThrough decode store' chain') ↔ store.Extended decode block := by
  constructor
  · rintro ⟨chain', hwalks⟩
    obtain ⟨lastBlock, hlast, _⟩ := h.lastBlock
    rcases addBlock_eq_some hlast h.last_ne hadd with ⟨hstored, _⟩ | ⟨hnew, _, hmoved⟩
    · exact .inl hstored
    · rcases hmoved with ⟨hhigher, rfl⟩ | ⟨_, rfl⟩
      · obtain ⟨hlink, hheight⟩ := h.extended_of_moved hlast hnew hprev hhigher hwalks
        exact .inr ⟨hlink, by rw [h.getBestHeight_eq hlast, Option.map_some, hheight]⟩
      · have hkept : ∀ key stored, store.blocks.get key = some stored →
            get decode { store with blocks := store.blocks.set block.hash (some block) } key =
              some stored := by
          intro key stored hstored
          have hne : key ≠ lastKey := by
            rintro rfl
            rw [h.reserved] at hstored
            cases hstored
          rw [get_of_ne hne, Lib.Mapping.get_set_of_ne, hstored]
          rintro rfl
          rw [(contains_eq_false.mp hnew).2] at hstored
          cases hstored
        have hpath := hwalks.path
        rw [show BlockStore.tip _ = store.last from h.tip] at hpath
        have hsame := hpath.unique (h.path.mono hkept rfl)
        have hmem := hwalks.all block.hash block (Lib.Mapping.get_set_self _ _ _)
        rw [hsame] at hmem
        exact absurd hmem (h.not_mem_of_new hnew)
  · intro hextends
    obtain ⟨lastBlock, hlast, hlength⟩ := h.lastBlock
    rcases addBlock_eq_some hlast h.last_ne hadd with ⟨_, rfl⟩ | ⟨hnew, hhash, hmoved⟩
    · exact ⟨chain, h.walksThrough decode⟩
    · obtain ⟨hlink, hheight⟩ := h.of_extended hextends hnew
      rcases hmoved with ⟨_, rfl⟩ | ⟨hlower, _⟩
      · exact ⟨_, (h.extend hnew hhash hlink hheight).walksThrough decode⟩
      · omega

end Linked

/-- The new store has the genesis block only. -/
theorem linked_createBlockchain {crypto : Crypto}
    (hsha : ∀ data, (crypto.sha256 data).length = 32) {timestamp : Int} {pubKeyHash : Bytes}
    {store : BlockStore} (h : createBlockchain crypto timestamp pubKeyHash = some store) :
    ∃ genesis, Linked store [genesis] := by
  obtain ⟨genesis, hgenesis, h⟩ := Option.bind_eq_some_iff.mp h
  obtain ⟨stored, hput, rfl⟩ := Option.map_eq_some_iff.mp h
  obtain ⟨hhash, rfl⟩ := put_eq_some hput
  have hlength := newBlock_hash_length hsha hgenesis
  obtain ⟨hprev, hheight⟩ := newBlock_eq_some hgenesis
  have hkey : lastKey ≠ genesis.hash := by
    intro heq
    rw [← heq] at hlength
    cases hlength
  refine ⟨genesis, rfl, hhash, ?_, ?_, ?_, ?_⟩
  · exact Lib.Mapping.get_set_of_ne _ _ hkey
  · exact .last (Lib.Mapping.get_set_self _ _ _) (if_pos hprev)
  · intro hash block hblock
    by_cases heq : hash = genesis.hash
    · rw [heq] at hblock
      obtain rfl : genesis = block := by simpa [setTip] using hblock
      exact ⟨heq.symm, List.mem_singleton_self _⟩
    · simp [setTip, Lib.Mapping.get_set_of_ne _ _ heq] at hblock
  · intro i block hblock
    cases i with
    | zero =>
        cases hblock
        simp [hheight]
    | succ i => cases hblock

end BlockStore

theorem nextHeight_eq {height : Int} (hlow : 0 ≤ height) (hhigh : height < 2 ^ 63 - 1) :
    nextHeight height = height + 1 :=
  wrap_eq_self_iff.mpr ⟨by omega, by omega⟩

namespace Handlers

/-- A block that comes in is stored already, or comes right after the tip; a block is mined
on the hash that is still the tip, has a new hash, and a height of type `int`. -/
def Extends (crypto : Crypto) (decode : Bytes → Option Block) (handlers : Handlers) :
    HandlerAction → Prop
  | .addBlock block => handlers.store.Extended decode block
  | .mineRead .. => True
  | .mineWrite n timestamp =>
      handlers.mining[n]?.all fun mining =>
        mining.lastHash = handlers.store.last ∧ mining.lastHeight < 2 ^ 63 - 1 ∧
          (mining.newBlock crypto timestamp).all fun block =>
            !handlers.store.contains block.hash

instance (crypto : Crypto) (decode : Bytes → Option Block) (handlers : Handlers) :
    (action : HandlerAction) → Decidable (Extends crypto decode handlers action)
  | .addBlock _ => inferInstanceAs (Decidable (BlockStore.Extended ..))
  | .mineRead .. => inferInstanceAs (Decidable True)
  | .mineWrite .. => inferInstanceAs (Decidable (_ = true))

/-- The height that a call of `MineBlock` has read is that of the block it has read. -/
structure Kept (handlers : Handlers) (chain : List Block) : Prop where
  linked : handlers.store.Linked chain
  mining : ∀ mining ∈ handlers.mining, ∃ block,
    handlers.store.blocks.get mining.lastHash = some block ∧ block.height = mining.lastHeight

namespace Kept

variable {handlers : Handlers} {chain : List Block}

theorem extend (h : Kept handlers chain) {block : Block}
    (hnew : handlers.store.contains block.hash = false) (hhash : block.hash ≠ [])
    (hprev : block.prevBlockHash = handlers.store.last) (hheight : block.height = chain.length)
    {minings : List Mining} (hsub : ∀ mining ∈ minings, mining ∈ handlers.mining) :
    Kept ⟨⟨handlers.store.blocks.set block.hash (some block), block.hash, block.hash⟩, minings⟩
      (block :: chain) := by
  refine ⟨h.linked.extend hnew hhash hprev hheight, ?_⟩
  intro mining hmining
  obtain ⟨stored, hstored, hread⟩ := h.mining mining (hsub mining hmining)
  refine ⟨stored, ?_, hread⟩
  rw [Lib.Mapping.get_set_of_ne, hstored]
  intro heq
  rw [heq, (BlockStore.contains_eq_false.mp hnew).2] at hstored
  cases hstored

theorem addBlock (h : Kept handlers chain) {decode : Bytes → Option Block} {block : Block}
    {store : BlockStore} (hadd : handlers.store.addBlock decode block = some store)
    (hextends : handlers.store.Extended decode block) :
    ∃ chain', Kept { handlers with store } chain' := by
  obtain ⟨lastBlock, hlast, hlength⟩ := h.linked.lastBlock
  rcases BlockStore.addBlock_eq_some hlast h.linked.last_ne hadd with
    ⟨_, rfl⟩ | ⟨hnew, hhash, hmoved⟩
  · exact ⟨chain, h⟩
  · obtain ⟨hprev, hheight⟩ := h.linked.of_extended hextends hnew
    rcases hmoved with ⟨_, rfl⟩ | ⟨hlower, _⟩
    · exact ⟨_, h.extend hnew hhash hprev hheight fun _ hmining => hmining⟩
    · omega

theorem mineRead (h : Kept handlers chain) {decode : Bytes → Option Block}
    {transactions : List Transaction} {block : Block}
    (hlast : handlers.store.get decode handlers.store.last = some block) :
    Kept { handlers with
      mining := handlers.mining ++ [⟨transactions, handlers.store.last, block.height⟩] }
      chain := by
  refine ⟨h.linked, ?_⟩
  intro mining hmining
  rcases List.mem_append.mp hmining with hold | hnew
  · exact h.mining mining hold
  · obtain rfl := List.mem_singleton.mp hnew
    obtain ⟨lastBlock, hget, _⟩ := h.linked.lastBlock
    rw [h.linked.get_eq decode hget] at hlast
    cases hlast
    exact ⟨block, hget, rfl⟩

theorem mineWrite (h : Kept handlers chain) {crypto : Crypto} {n : Nat} {timestamp : Int}
    {mining : Mining} {block : Block} {store : BlockStore}
    (hmining : handlers.mining[n]? = some mining)
    (hblock : mining.newBlock crypto timestamp = some block)
    (hwrite : handlers.store.mineWrite block = some store)
    (hlastHash : mining.lastHash = handlers.store.last)
    (hlastHeight : mining.lastHeight < 2 ^ 63 - 1)
    (hnew : handlers.store.contains block.hash = false) :
    Kept ⟨store, handlers.mining.eraseIdx n⟩ (block :: chain) := by
  obtain ⟨hhash, rfl⟩ := BlockStore.mineWrite_eq_some hwrite
  obtain ⟨hprev, hheight⟩ := newBlock_eq_some hblock
  obtain ⟨lastBlock, hlast, hlength⟩ := h.linked.lastBlock
  obtain ⟨read, hread, hreadHeight⟩ := h.mining mining (List.mem_of_getElem? hmining)
  have hsame : read = lastBlock := by
    rw [hlastHash, hlast] at hread
    cases hread
    rfl
  have hpos : 0 < chain.length := by
    obtain ⟨_, _, rfl, _⟩ := h.linked.path.head
    exact Nat.succ_pos _
  refine h.extend hnew hhash (hprev.trans hlastHash) ?_
    fun _ hmem => List.mem_of_mem_eraseIdx hmem
  rw [hsame] at hreadHeight
  rw [hheight, nextHeight_eq (by omega) hlastHeight]
  omega

theorem step (h : Kept handlers chain) {crypto : Crypto} {decode : Bytes → Option Block}
    {action : HandlerAction} {handlers' : Handlers}
    (hextends : Extends crypto decode handlers action)
    (hstep : handlers.step crypto decode action = some handlers') :
    ∃ chain', Kept handlers' chain' := by
  cases step_eq_some hstep with
  | addBlock block store hint hadd => exact h.addBlock hadd hextends
  | mineRead fuel transactions block hlast => exact ⟨chain, h.mineRead hlast⟩
  | mineWrite n timestamp mining block store hmining hblock hwrite =>
      simp only [Extends, hmining, hblock, Option.all_some, Bool.not_eq_true',
        decide_eq_true_eq] at hextends
      exact ⟨_, h.mineWrite hmining hblock hwrite hextends.1 hextends.2.1 hextends.2.2⟩

end Kept

end Handlers

section Runs

variable {crypto : Crypto} {decode : Bytes → Option Block} {timestamp : Int}
  {pubKeyHash : Bytes} {store : BlockStore}

/-- When every block comes right after the tip, the walk from the tip is the whole chain. -/
theorem chain_walks (hsha : ∀ data, (crypto.sha256 data).length = 32)
    (hstore : BlockStore.createBlockchain crypto timestamp pubKeyHash = some store)
    (run : HandlerRun crypto decode store)
    (hextends : run.AllSteps (Handlers.Extends crypto decode)) : ∀ k, k ≤ run.length →
    (∃ chain, (run.state k).store.WalksThrough decode chain) ∧
      (run.state k).store.LoopsEnd decode := by
  have hkept : ∀ k, k ≤ run.length → ∃ chain, (run.state k).Kept chain := by
    refine run.induct ?_ ?_
    · obtain ⟨genesis, hlinked⟩ := BlockStore.linked_createBlockchain hsha hstore
      rw [run.starts]
      exact ⟨_, hlinked, nofun⟩
    · rintro k hk ⟨chain, ih⟩
      exact ih.step (hextends k hk) (run.steps k hk)
  intro k hk
  obtain ⟨chain, h⟩ := hkept k hk
  have hwalks := h.linked.walksThrough decode
  exact ⟨⟨chain, hwalks⟩, hwalks.loopsEnd⟩

end Runs

section Received

/-! A node with hashes of 32 bytes, the last one the sum of what is hashed. -/

def sumCrypto : Crypto where
  sha256 bytes := List.replicate 31 0 ++ [bytes.foldl (· + ·) 0]
  ripemd160 := id
  ecdsaVerify _ _ _ _ := false
  serialize tx := tx.vin.flatMap (·.pubKey)

theorem sumCrypto_length (data : Bytes) : (sumCrypto.sha256 data).length = 32 := by
  simp [sumCrypto]

def newStore : BlockStore :=
  (BlockStore.createBlockchain sumCrypto 0 [7]).getD ⟨∅, [], []⟩

theorem newStore_isSome : (BlockStore.createBlockchain sumCrypto 0 [7]).isSome := by
  decide +kernel

theorem createBlockchain_newStore :
    BlockStore.createBlockchain sumCrypto 0 [7] = some newStore := by
  obtain ⟨store, hstore⟩ := Option.isSome_iff_exists.mp newStore_isSome
  rw [newStore, hstore, Option.getD_some]

/-- A block of a peer and a mined one, in order. -/
def orderedActs : List HandlerAction :=
  [.addBlock ⟨0, [], newStore.last, [1], 0, 1⟩,
    .mineRead 2 [newCoinbaseTX sumCrypto [7] "" [1]], .mineWrite 0 5]

theorem orderedActs_exec :
    (Lib.exec (Handlers.step sumCrypto fun _ => none) ⟨newStore, []⟩ orderedActs).isSome := by
  decide +kernel

def orderedRun : HandlerRun sumCrypto (fun _ => none) newStore :=
  .ofActions orderedActs orderedActs_exec

theorem orderedRun_extends :
    orderedRun.AllSteps (Handlers.Extends sumCrypto fun _ => none) := by
  decide +kernel

theorem chain_walks_ordered :
    (orderedRun.state 3).store.getBestHeight (fun _ => none) = some 2 ∧
      ∃ chain, (orderedRun.state 3).store.WalksThrough (fun _ => none) chain :=
  ⟨by decide +kernel, (chain_walks sumCrypto_length createBlockchain_newStore orderedRun
    orderedRun_extends 3 (Nat.le_refl 3)).1⟩

/-- A block comes in before its parent. -/
def newestFirst : List HandlerAction :=
  [.addBlock ⟨0, [], [2], [3], 0, 2⟩]

theorem newestFirst_tip :
    (Lib.exec (Handlers.step sumCrypto fun _ => none) ⟨newStore, []⟩ newestFirst).map
        (fun handlers => (handlers.store.tip, handlers.store.blocks.get [3],
          handlers.store.blocks.get [2])) =
      some ([3], some ⟨0, [], [2], [3], 0, 2⟩, none) := by
  decide +kernel

theorem chain_broken : ¬ ∀ (crypto : Crypto) (decode : Bytes → Option Block)
    (timestamp : Int) (pubKeyHash : Bytes) (store : BlockStore),
    (∀ data, (crypto.sha256 data).length = 32) →
    BlockStore.createBlockchain crypto timestamp pubKeyHash = some store →
    ∀ (run : HandlerRun crypto decode store) (k : Nat), k ≤ run.length →
      (∃ chain, (run.state k).store.WalksThrough decode chain) ∧
        (run.state k).store.LoopsEnd decode := by
  intro hall
  obtain ⟨run, _, hread⟩ := Lib.Run.exists_of_exec newestFirst_tip
  obtain ⟨⟨chain, hwalks⟩, _⟩ := hall sumCrypto (fun _ => none) 0 [7] newStore
    sumCrypto_length createBlockchain_newStore run run.length (Nat.le_refl _)
  generalize (run.state run.length).store = store at hwalks hread
  simp only [Prod.mk.injEq] at hread
  obtain ⟨htip, hblock, hparent⟩ := hread
  have hpath := hwalks.path
  rw [htip] at hpath
  cases hpath with
  | last hfirst hnext =>
      rw [BlockStore.links_get_of_ne (by decide), hblock] at hfirst
      cases hfirst
      cases hnext
  | cons hfirst hnext hrest =>
      rw [BlockStore.links_get_of_ne (by decide), hblock] at hfirst
      cases hfirst
      cases hnext
      obtain ⟨_, _, _, hsecond⟩ := hrest.head
      rw [BlockStore.links_get_of_ne (by decide), hparent] at hsecond
      cases hsecond

end Received

end BlockchainTutorial.Bitcoin
