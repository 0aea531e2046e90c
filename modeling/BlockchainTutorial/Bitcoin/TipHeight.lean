import BlockchainTutorial.Bitcoin.ChainWalk

namespace BlockchainTutorial.Bitcoin

/-! The height of the tip. `AddBlock` moves the tip to higher blocks only, and `MineBlock`
to its own block, whatever was stored since it read the tip. -/

theorem isInt_nextHeight (height : Int) : IsInt (nextHeight height) :=
  isInt_wrap (height + 1)

/-- The number after the largest one is the smallest. -/
theorem nextHeight_max : nextHeight (2 ^ 63 - 1) = -2 ^ 63 := by
  decide

namespace BlockStore

/-- The block at the tip is stored, and no stored block is higher. -/
structure TipHighest (decode : Bytes → Option Block) (store : BlockStore) (height : Int) :
    Prop where
  best : store.getBestHeight decode = some height
  attained : ∃ hash block, store.blocks.get hash = some block ∧ block.height = height
  highest : ∀ hash block, store.blocks.get hash = some block → block.height ≤ height

/-- The heights of the stored blocks, from the genesis block on. -/
structure Topped (store : BlockStore) (height : Int) : Prop where
  last_ne : store.last ≠ lastKey
  lastBlock : ∃ block, store.blocks.get store.last = some block ∧ block.height = height
  highest : ∀ hash block, store.blocks.get hash = some block →
    IsInt block.height ∧ block.height ≤ height
  pos : 0 ≤ height

namespace Topped

variable {store : BlockStore} {height : Int}

theorem isInt (h : Topped store height) : IsInt height := by
  obtain ⟨block, hlast, rfl⟩ := h.lastBlock
  exact (h.highest _ _ hlast).1

theorem best (h : Topped store height) (decode : Bytes → Option Block) :
    store.getBestHeight decode = some height := by
  obtain ⟨block, hlast, rfl⟩ := h.lastBlock
  rw [getBestHeight, get_of_ne h.last_ne, hlast, Option.map_some]

theorem tipHighest (h : Topped store height) (decode : Bytes → Option Block) :
    TipHighest decode store height := by
  obtain ⟨block, hlast, hheight⟩ := h.lastBlock
  exact ⟨h.best decode, ⟨_, block, hlast, hheight⟩, fun hash block hblock =>
    (h.highest hash block hblock).2⟩

/-- The tip moves to a block that is no lower. -/
theorem setTip (h : Topped store height) {block : Block} (hkey : block.hash ≠ lastKey)
    (hint : IsInt block.height) (hle : height ≤ block.height) :
    Topped ⟨store.blocks.set block.hash (some block), block.hash, block.hash⟩ block.height := by
  refine ⟨hkey, ⟨block, Lib.Mapping.get_set_self _ _ _, rfl⟩, ?_, Int.le_trans h.pos hle⟩
  intro hash stored hstored
  by_cases heq : hash = block.hash
  · rw [heq, Lib.Mapping.get_set_self] at hstored
    cases hstored
    exact ⟨hint, Int.le_refl _⟩
  · rw [Lib.Mapping.get_set_of_ne _ _ heq] at hstored
    obtain ⟨hstoredInt, hstoredLe⟩ := h.highest hash stored hstored
    exact ⟨hstoredInt, Int.le_trans hstoredLe hle⟩

/-- A block that is no higher is stored beside the tip. -/
theorem keepTip (h : Topped store height) {block : Block}
    (hnew : store.contains block.hash = false) (hint : IsInt block.height)
    (hle : block.height ≤ height) :
    Topped { store with blocks := store.blocks.set block.hash (some block) } height := by
  obtain ⟨lastBlock, hlast, hheight⟩ := h.lastBlock
  refine ⟨h.last_ne, ⟨lastBlock, ?_, hheight⟩, ?_, h.pos⟩
  · rw [Lib.Mapping.get_set_of_ne, hlast]
    intro heq
    rw [heq, (contains_eq_false.mp hnew).2] at hlast
    cases hlast
  · intro hash stored hstored
    by_cases heq : hash = block.hash
    · rw [heq, Lib.Mapping.get_set_self] at hstored
      cases hstored
      exact ⟨hint, hle⟩
    · rw [Lib.Mapping.get_set_of_ne _ _ heq] at hstored
      exact h.highest hash stored hstored

theorem addBlock (h : Topped store height) {decode : Bytes → Option Block} {block : Block}
    {store' : BlockStore} (hint : IsInt block.height)
    (hadd : store.addBlock decode block = some store') :
    ∃ height', height ≤ height' ∧ Topped store' height' := by
  obtain ⟨lastBlock, hlast, hheight⟩ := h.lastBlock
  rcases addBlock_eq_some hlast h.last_ne hadd with ⟨_, rfl⟩ | ⟨hnew, _, hmoved⟩
  · exact ⟨height, Int.le_refl _, h⟩
  · rcases hmoved with ⟨hhigher, rfl⟩ | ⟨hlower, rfl⟩
    · have hle : height ≤ block.height := by omega
      exact ⟨block.height, hle, h.setTip (contains_eq_false.mp hnew).1 hint hle⟩
    · exact ⟨height, Int.le_refl _, h.keepTip hnew hint (hheight ▸ hlower)⟩

end Topped

theorem topped_createBlockchain {crypto : Crypto}
    (hsha : ∀ data, (crypto.sha256 data).length = 32) {timestamp : Int} {pubKeyHash : Bytes}
    {store : BlockStore} (h : createBlockchain crypto timestamp pubKeyHash = some store) :
    Topped store 0 := by
  obtain ⟨genesis, hlinked⟩ := linked_createBlockchain hsha h
  obtain ⟨lastBlock, hlast, hlength⟩ := hlinked.lastBlock
  have hzero : lastBlock.height = 0 := by
    rw [List.length_singleton] at hlength
    omega
  refine ⟨hlinked.last_ne, ⟨lastBlock, hlast, hzero⟩, ?_, Int.le_refl 0⟩
  intro hash block hblock
  obtain ⟨i, hi⟩ := List.getElem?_of_mem (hlinked.all hash block hblock).2
  have hheight := hlinked.heights i block hi
  rw [List.length_singleton] at hheight
  obtain ⟨hlt, _⟩ := List.getElem?_eq_some_iff.mp hi
  rw [List.length_singleton] at hlt
  refine ⟨⟨?_, ?_⟩, ?_⟩ <;> omega

end BlockStore

namespace Handlers

/-- A call of `MineBlock` writes a block that is no lower than the tip. -/
def InOrder (decode : Bytes → Option Block) (handlers : Handlers) : HandlerAction → Prop
  | .addBlock _ => True
  | .mineRead .. => True
  | .mineWrite n _ =>
      handlers.mining[n]?.all fun mining =>
        (handlers.store.getBestHeight decode).all fun height =>
          height ≤ mining.lastHeight + 1 ∧ mining.lastHeight < 2 ^ 63 - 1

instance (decode : Bytes → Option Block) (handlers : Handlers) :
    (action : HandlerAction) → Decidable (InOrder decode handlers action)
  | .addBlock _ => inferInstanceAs (Decidable True)
  | .mineRead .. => inferInstanceAs (Decidable True)
  | .mineWrite .. => inferInstanceAs (Decidable (_ = true))

structure Topped (handlers : Handlers) (height : Int) : Prop where
  store : handlers.store.Topped height
  mining : ∀ mining ∈ handlers.mining, 0 ≤ mining.lastHeight ∧ mining.lastHeight < 2 ^ 63

namespace Topped

variable {handlers handlers' : Handlers} {height : Int} {crypto : Crypto}
  {decode : Bytes → Option Block} {action : HandlerAction}

/-- The block that is mined is not lower than the tip exactly when the tip that was read
was at most one below it, and there is a next number. -/
theorem le_nextHeight_iff {lastHeight : Int} (hpos : 0 ≤ height)
    (hread : 0 ≤ lastHeight ∧ lastHeight < 2 ^ 63) :
    height ≤ nextHeight lastHeight ↔ height ≤ lastHeight + 1 ∧ lastHeight < 2 ^ 63 - 1 := by
  by_cases hmax : lastHeight < 2 ^ 63 - 1
  · rw [nextHeight_eq hread.1 hmax]
    exact ⟨fun h => ⟨h, hmax⟩, fun h => h.1⟩
  · obtain rfl : lastHeight = 2 ^ 63 - 1 := by omega
    rw [nextHeight_max]
    constructor
    · intro h
      omega
    · rintro ⟨_, h⟩
      exact absurd h hmax

theorem inOrder_iff (h : Topped handlers height) {n : Nat} {timestamp : Int} {mining : Mining}
    (hmining : handlers.mining[n]? = some mining) :
    InOrder decode handlers (.mineWrite n timestamp) ↔
      height ≤ nextHeight mining.lastHeight := by
  rw [le_nextHeight_iff h.store.pos (h.mining mining (List.mem_of_getElem? hmining))]
  simp [InOrder, hmining, h.store.best decode]

/-- A step keeps the tip the highest block when the condition holds, and lowers it when it
does not. -/
theorem step (hsha : ∀ data, (crypto.sha256 data).length = 32) (h : Topped handlers height)
    (hstep : handlers.step crypto decode action = some handlers') :
    (InOrder decode handlers action ∧ ∃ height', height ≤ height' ∧ Topped handlers' height') ∨
      (¬ InOrder decode handlers action ∧ ∃ height', height' < height ∧
        handlers'.store.getBestHeight decode = some height') := by
  cases step_eq_some hstep with
  | addBlock block store hint hadd =>
      obtain ⟨height', hle, htopped⟩ := h.store.addBlock hint hadd
      exact .inl ⟨trivial, height', hle, htopped, h.mining⟩
  | mineRead fuel transactions block hlast =>
      refine .inl ⟨trivial, height, Int.le_refl _, h.store, ?_⟩
      intro mining hmining
      rcases List.mem_append.mp hmining with hold | hnew
      · exact h.mining mining hold
      · obtain rfl := List.mem_singleton.mp hnew
        have hbest := h.store.best decode
        rw [BlockStore.getBestHeight, hlast, Option.map_some, Option.some.injEq] at hbest
        dsimp only
        rw [hbest]
        exact ⟨h.store.pos, h.store.isInt.2⟩
  | mineWrite n timestamp mining block store hmining hblock hwrite =>
      obtain ⟨_, rfl⟩ := BlockStore.mineWrite_eq_some hwrite
      obtain ⟨_, hheight⟩ := newBlock_eq_some hblock
      have hkey : block.hash ≠ lastKey := by
        intro heq
        have hlength := newBlock_hash_length hsha hblock
        rw [heq] at hlength
        cases hlength
      rw [h.inOrder_iff hmining, ← hheight]
      by_cases hle : height ≤ block.height
      · refine .inl ⟨hle, block.height, hle, h.store.setTip hkey ?_ hle, ?_⟩
        · rw [hheight]
          exact isInt_nextHeight _
        · exact fun mining hmem => h.mining mining (List.mem_of_mem_eraseIdx hmem)
      · refine .inr ⟨hle, block.height, Int.not_le.mp hle, ?_⟩
        rw [BlockStore.getBestHeight, BlockStore.get_of_ne hkey, Lib.Mapping.get_set_self,
          Option.map_some]

end Topped

end Handlers

section Runs

variable {crypto : Crypto} (decode : Bytes → Option Block) {timestamp : Int}
  {pubKeyHash : Bytes} {store : BlockStore}

/-- The tip is the highest of the stored blocks, and was never higher. -/
def TipRises (run : HandlerRun crypto decode store) : Prop :=
  ∀ k, k ≤ run.length → ∃ height, (run.state k).store.TipHighest decode height ∧
    ∀ j, j ≤ k → ∀ earlier, (run.state j).store.getBestHeight decode = some earlier →
      earlier ≤ height

theorem topped_of_inOrder (hsha : ∀ data, (crypto.sha256 data).length = 32)
    (hstore : BlockStore.createBlockchain crypto timestamp pubKeyHash = some store)
    (run : HandlerRun crypto decode store) {last : Nat} (hlast : last ≤ run.length)
    (horder : ∀ k, k < last → Handlers.InOrder decode (run.state k) (run.act k)) :
    ∀ k, k ≤ last → ∃ height, (run.state k).Topped height ∧
      ∀ j, j ≤ k → ∀ earlier, (run.state j).store.getBestHeight decode = some earlier →
        earlier ≤ height := by
  intro k hk
  induction k with
  | zero =>
      have hzero := BlockStore.topped_createBlockchain hsha hstore
      refine ⟨0, ⟨by rwa [run.starts], by rw [run.starts]; exact nofun⟩, ?_⟩
      intro j hj earlier hearlier
      obtain rfl : j = 0 := by omega
      rw [run.starts, hzero.best decode] at hearlier
      cases hearlier
      exact Int.le_refl _
  | succ k ih =>
      obtain ⟨height, htopped, hearlier⟩ := ih (by omega)
      rcases htopped.step hsha (run.steps k (by omega)) with
        ⟨_, height', hle, htopped'⟩ | ⟨hnot, _⟩
      · refine ⟨height', htopped', ?_⟩
        intro j hj earlier hbest
        by_cases hold : j ≤ k
        · exact Int.le_trans (hearlier j hold earlier hbest) hle
        · obtain rfl : j = k + 1 := by omega
          rw [htopped'.store.best decode] at hbest
          cases hbest
          exact Int.le_refl _
      · exact absurd (horder k (by omega)) hnot

theorem tip_rises_iff (hsha : ∀ data, (crypto.sha256 data).length = 32)
    (hstore : BlockStore.createBlockchain crypto timestamp pubKeyHash = some store)
    (run : HandlerRun crypto decode store) :
    TipRises decode run ↔ run.AllSteps (Handlers.InOrder decode) := by
  constructor
  · intro hrises k
    induction k using Nat.strong_induction_on with
    | _ k ih =>
        intro hk
        obtain ⟨height, htopped, _⟩ := topped_of_inOrder decode hsha hstore run
          (Nat.le_of_lt hk) (fun j hj => ih j hj (by omega)) k (Nat.le_refl k)
        rcases htopped.step hsha (run.steps k hk) with ⟨horder, _⟩ | ⟨_, height', hlower, hbest⟩
        · exact horder
        · obtain ⟨height'', hhighest, hearlier⟩ := hrises (k + 1) hk
          rw [hhighest.best] at hbest
          cases hbest
          have hle := hearlier k (Nat.le_succ k) height (htopped.store.best decode)
          omega
  · intro horder k hk
    obtain ⟨height, htopped, hearlier⟩ :=
      topped_of_inOrder decode hsha hstore run (Nat.le_refl _) horder k hk
    exact ⟨height, htopped.store.tipHighest decode, hearlier⟩

end Runs

section LostUpdate

/-! Blocks of a peer come in while a block is mined on the genesis block. -/

theorem tip_rises_ordered : TipRises (fun _ => none) orderedRun :=
  (tip_rises_iff _ sumCrypto_length createBlockchain_newStore orderedRun).mpr
    (by decide +kernel)

def overtakenActs : List HandlerAction :=
  [.mineRead 1 [newCoinbaseTX sumCrypto [7] "" [1]],
    .addBlock ⟨0, [], newStore.last, [1], 0, 1⟩, .addBlock ⟨0, [], [1], [2], 0, 2⟩,
    .mineWrite 0 5]

theorem overtakenActs_exec :
    (Lib.exec (Handlers.step sumCrypto fun _ => none) ⟨newStore, []⟩ overtakenActs).isSome := by
  decide +kernel

theorem tip_falls : ¬ ∀ (crypto : Crypto) (decode : Bytes → Option Block)
    (timestamp : Int) (pubKeyHash : Bytes) (store : BlockStore),
    (∀ data, (crypto.sha256 data).length = 32) →
    BlockStore.createBlockchain crypto timestamp pubKeyHash = some store →
    ∀ run : HandlerRun crypto decode store, TipRises decode run := by
  intro hall
  obtain ⟨height, hhighest, hearlier⟩ := hall sumCrypto (fun _ => none) 0 [7] newStore
    sumCrypto_length createBlockchain_newStore
    (.ofActions overtakenActs overtakenActs_exec) 4 (Nat.le_refl 4)
  have hlast : ((Lib.Run.ofActions overtakenActs overtakenActs_exec).state 4).store.getBestHeight
      (fun _ => none) = some 1 := by
    decide +kernel
  have hbefore : ((Lib.Run.ofActions overtakenActs overtakenActs_exec).state 3).store.getBestHeight
      (fun _ => none) = some 2 := by
    decide +kernel
  have hle := hearlier 3 (by decide) 2 hbefore
  obtain rfl := Option.some.inj (hlast.symm.trans hhighest.best)
  exact absurd hle (by decide)

end LostUpdate

end BlockchainTutorial.Bitcoin
