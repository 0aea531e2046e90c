import BlockchainTutorial.Bitcoin.ArrivalOrder
import BlockchainTutorial.Bitcoin.Peer
import BlockchainTutorial.Bitcoin.Unspent

namespace BlockchainTutorial.Bitcoin

/-! Two servers exchange blocks until no message is in flight. -/

namespace BlockStore

/-- The bucket has a chain from the tip to a block without `PrevBlockHash`. Blocks are
stored under their hashes, and none is higher than the tip. -/
structure Complete (store : BlockStore) (chain : List Block) : Prop where
  last : store.last = store.tip
  path : store.storedLinks.Path store.tip chain
  filed : ∀ key block, store.blocks.get key = some block →
    block.hash = key ∧ Storable key ∧ key ≠ lastKey
  highest : ∀ key block, store.blocks.get key = some block →
    ∀ top, store.blocks.get store.tip = some top → block.height ≤ top.height

/-- A bucket with one chain only. -/
theorem Linked.complete {store : BlockStore} {chain : List Block} (h : Linked store chain)
    (hstorable : ∀ key block, store.blocks.get key = some block → Storable key) :
    Complete store chain := by
  refine ⟨h.tip.symm, ?_, ?_, ?_⟩
  · rw [h.tip]
    exact h.path
  · intro key block hget
    refine ⟨(h.all key block hget).1, hstorable key block hget, ?_⟩
    rintro rfl
    rw [h.reserved] at hget
    cases hget
  · intro key block hget top htop
    rw [h.tip] at htop
    exact (h.height_le htop (h.all key block hget).2).1

namespace Complete

variable {store : BlockStore} {chain : List Block}

theorem top (h : Complete store chain) : ∃ top rest, chain = top :: rest ∧
    store.blocks.get store.tip = some top ∧ top.hash = store.tip := by
  obtain ⟨top, rest, hchain, hget⟩ := h.path.head
  exact ⟨top, rest, hchain, hget, (h.filed _ _ hget).1⟩

theorem get_hash (h : Complete store chain) {block : Block} (hmem : block ∈ chain) :
    store.blocks.get block.hash = some block := by
  obtain ⟨key, hget⟩ := h.path.get_of_mem hmem
  have hstored : store.blocks.get key = some block := hget
  rwa [(h.filed _ _ hstored).1]

theorem key (h : Complete store chain) {block : Block} (hmem : block ∈ chain) :
    Storable block.hash ∧ block.hash ≠ lastKey :=
  (h.filed _ _ (h.get_hash hmem)).2

theorem get_tip (h : Complete store chain) (decode : Bytes → Option Block) {top : Block}
    (htop : store.blocks.get store.tip = some top) :
    store.get decode store.last = some top := by
  rw [h.last, get_of_ne (h.filed _ _ htop).2.2, htop]

theorem getBestHeight_eq (h : Complete store chain) (decode : Bytes → Option Block)
    {top : Block} (htop : store.blocks.get store.tip = some top) :
    store.getBestHeight decode = some top.height := by
  rw [getBestHeight, h.get_tip decode htop, Option.map_some]

theorem tipHighest (h : Complete store chain) (decode : Bytes → Option Block) {top : Block}
    (htop : store.blocks.get store.tip = some top) : TipHighest decode store top.height :=
  ⟨h.getBestHeight_eq decode htop, ⟨_, top, htop, rfl⟩,
    fun key block hget => h.highest key block hget top htop⟩

/-- The iterator goes through the chain wherever its blocks are stored. -/
theorem walk (h : Complete store chain) (decode : Bytes → Option Block) {store' : BlockStore}
    (hstored : ∀ block ∈ chain, store'.blocks.get block.hash = some block) :
    (store'.links decode).Path store.tip chain := by
  refine h.path.mono_of_mem ?_ rfl
  intro key block hmem hget
  obtain ⟨hhash, _, hkey⟩ := h.filed key block hget
  rw [links_get_of_ne hkey, ← hhash]
  exact hstored block hmem

/-- No other block of the chain has the hash of the tip. -/
theorem hash_ne_top (h : Complete store chain) {top : Block} {rest : List Block}
    (hchain : chain = top :: rest) {block : Block} (hmem : block ∈ rest) :
    block.hash ≠ top.hash := by
  subst hchain
  intro heq
  have hget := h.get_hash (List.mem_cons_of_mem _ hmem)
  rw [heq, h.get_hash List.mem_cons_self] at hget
  obtain rfl := Option.some.inj hget
  exact h.path.not_mem_tail hmem

/-- The blocks of a higher chain come in, the highest one first. -/
theorem addBlocks {store₀ : BlockStore} {chain₀ : List Block} {decode : Bytes → Option Block}
    {height height₀ : Int} (h : Complete store chain) (h₀ : Complete store₀ chain₀)
    (hbest : store.getBestHeight decode = some height)
    (hbest₀ : store₀.getBestHeight decode = some height₀) (hlt : height₀ < height)
    (hsame : ∀ key block other, store.blocks.get key = some block →
      store₀.blocks.get key = some other → block = other) :
    ∃ store', store₀.addBlocks decode chain = some store' ∧
      (∀ block ∈ chain, store'.blocks.get block.hash = some block) ∧
      store'.last = store.tip ∧ store'.tip = store.tip := by
  obtain ⟨top, rest, hchain, htop, hhash⟩ := h.top
  obtain ⟨top₀, _, _, htop₀, _⟩ := h₀.top
  have hmem : top ∈ chain := by rw [hchain]; exact List.mem_cons_self
  have hrest : ∀ block ∈ rest, block ∈ chain := fun block hblock => by
    rw [hchain]
    exact List.mem_cons_of_mem _ hblock
  obtain rfl : top.height = height :=
    Option.some.inj ((h.getBestHeight_eq decode htop).symm.trans hbest)
  obtain rfl : top₀.height = height₀ :=
    Option.some.inj ((h₀.getBestHeight_eq decode htop₀).symm.trans hbest₀)
  have hold : ∀ block ∈ chain, ∀ old, store₀.blocks.get block.hash = some old → old = block :=
    fun block hblock old hget => (hsame _ _ _ (h.get_hash hblock) hget).symm
  obtain ⟨store₁, height₁, hadd₁, hhighest₁, hmoved₁, hstored₁⟩ :=
    addBlock_spec (h₀.tipHighest decode htop₀) (h.key hmem).1 (h.key hmem).2
  have hnew : ∀ key block, store₁.blocks.get key = some block →
      block.height ≤ top₀.height ∨ (block = top ∧ top.hash = key) := by
    intro key block hget
    rw [hstored₁] at hget
    rcases stored_eq_some hget with hget | ⟨hblock, hkey⟩
    · exact .inl (h₀.highest key block hget top₀ htop₀)
    · obtain rfl := List.mem_singleton.mp hblock
      exact .inr ⟨rfl, hkey⟩
  have htop₁ : store₁.blocks.get top.hash = some top := by
    rw [hstored₁]
    exact stored_of_mem (by simp) (List.mem_singleton_self _) (hold top hmem)
  obtain ⟨hlast₁, htip₁⟩ := hmoved₁.eq_of_highest hhighest₁ htop₁ (by
    intro other block hget hne
    rcases hnew other block hget with hle | ⟨_, heq⟩
    · omega
    · exact absurd heq.symm hne) hlt
  have hheight₁ : height₁ = top.height := by
    have hle := hhighest₁.highest _ _ htop₁
    obtain ⟨key, block, hget, hheight⟩ := hhighest₁.attained
    rcases hnew key block hget with hlow | ⟨rfl, _⟩ <;> omega
  have hkeys : ∀ block ∈ rest, Storable block.hash ∧ block.hash ≠ lastKey :=
    fun block hblock => h.key (hrest block hblock)
  obtain ⟨store', height', hadd', hhighest', hmoved', hstored'⟩ :=
    addBlocks_spec hhighest₁ hkeys
  refine ⟨store', ?_, ?_, ?_⟩
  · rw [hchain, addBlocks_cons, hadd₁, Option.bind_some, hadd']
  · intro block hblock
    rw [hstored', stored_cons hstored₁, ← hchain]
    refine stored_of_mem ?_ hblock (hold block hblock)
    intro first hfirst second hsecond heq
    have hget := h.get_hash hfirst
    rw [heq, h.get_hash hsecond] at hget
    exact (Option.some.inj hget).symm
  · cases hmoved' with
    | kept hlast htip _ =>
        exact ⟨hlast.trans (hlast₁.trans hhash), htip.trans (htip₁.trans hhash)⟩
    | moved key block _ _ hget hheight hhigher =>
        -- no block of the chain is higher than the first one
        rw [hstored'] at hget
        rcases stored_eq_some hget with hget | ⟨hblock, _⟩
        · have hle := hhighest₁.highest key block hget
          omega
        · have hle := h.highest _ _ (h.get_hash (hrest block hblock)) top htop
          omega

end Complete

end BlockStore

/-- Two servers, and the messages between them in the order in which they are handled. -/
structure Exchange where
  a : Peer
  b : Peer
  inFlight : List Packet

namespace Exchange

variable (decode : Bytes → Option Block) (fuel : Nat)

/-- The first message is handled by the server that it was sent to. -/
def handleNext (exchange : Exchange) : Option Exchange :=
  match exchange.inFlight with
  | [] => some exchange
  | packet :: rest =>
      if packet.addr = exchange.a.nodeAddress then
        (exchange.a.handleConnection decode fuel true packet.addrFrom packet.message).map
          fun (a, sent) => { exchange with a, inFlight := rest ++ sent }
      else if packet.addr = exchange.b.nodeAddress then
        (exchange.b.handleConnection decode fuel true packet.addrFrom packet.message).map
          fun (b, sent) => { exchange with b, inFlight := rest ++ sent }
      else some { exchange with inFlight := rest }

def handle : Nat → Exchange → Option Exchange
  | 0, exchange => some exchange
  | n + 1, exchange => (handleNext decode fuel exchange).bind (handle n)

/-- `b` sends its version to `a`, and `n` messages are handled. -/
def sync (n : Nat) (a b : Peer) : Option Exchange :=
  (b.sendVersion decode true a.nodeAddress).bind fun (b, sent) =>
    handle decode fuel n ⟨a, b, sent⟩

/-- No message is in flight, and `b` has the chain of `a` and its index. -/
structure Synced (exchange : Exchange) (chain : List Block) : Prop where
  quiet : exchange.inFlight = []
  inTransit : exchange.b.blocksInTransit = []
  stored : ∀ block ∈ chain, exchange.b.store.blocks.get block.hash = some block
  tip : exchange.b.store.tip = exchange.a.store.tip
  last : exchange.b.store.last = exchange.a.store.last
  chainstate : ∀ id, exchange.b.chainstate.get id = (findUTXO chain).get id

variable {decode : Bytes → Option Block} {fuel : Nat} {a b : Peer}

theorem handle_add (n m : Nat) (exchange : Exchange) :
    handle decode fuel (n + m) exchange =
      (handle decode fuel n exchange).bind (handle decode fuel m) := by
  induction n generalizing exchange with
  | zero => rw [Nat.zero_add]; rfl
  | succ n ih =>
      rw [Nat.succ_add]
      simp only [handle]
      cases handleNext decode fuel exchange with
      | none => rfl
      | some next => exact ih next

theorem sync_add (n m : Nat) :
    sync decode fuel (n + m) a b = (sync decode fuel n a b).bind (handle decode fuel m) := by
  unfold sync
  cases b.sendVersion decode true a.nodeAddress with
  | none => rfl
  | some sent => exact handle_add n m _

theorem handle_succ {n : Nat} {exchange next : Exchange}
    (h : handleNext decode fuel exchange = some next) :
    handle decode fuel (n + 1) exchange = handle decode fuel n next := by
  rw [handle, h, Option.bind_some]

theorem handleNext_a {packet : Packet} {rest sent : List Packet} {a' : Peer}
    (haddr : packet.addr = a.nodeAddress)
    (h : a.handleConnection decode fuel true packet.addrFrom packet.message =
      some (a', sent)) :
    handleNext decode fuel ⟨a, b, packet :: rest⟩ = some ⟨a', b, rest ++ sent⟩ := by
  simp only [handleNext, haddr, if_true, h, Option.map_some]

theorem handleNext_b (hne : a.nodeAddress ≠ b.nodeAddress) {packet : Packet}
    {rest sent : List Packet} {b' : Peer} (haddr : packet.addr = b.nodeAddress)
    (h : b.handleConnection decode fuel true packet.addrFrom packet.message =
      some (b', sent)) :
    handleNext decode fuel ⟨a, b, packet :: rest⟩ = some ⟨a, b', rest ++ sent⟩ := by
  simp only [handleNext, haddr, hne.symm, if_false, if_true, h, Option.map_some]

/-- `a` answers a getdata with the block, and `b` adds it. -/
theorem handle_getdata (hne : a.nodeAddress ≠ b.nodeAddress) {block : Block} {b' : Peer}
    {sent : List Packet} (hget : a.store.getBlock decode block.hash = some (some block))
    (hblock : b.handleBlock decode fuel true a.nodeAddress block = some (b', sent)) (n : Nat) :
    handle decode fuel (n + 2) ⟨a, b, [⟨b.nodeAddress, a.nodeAddress, .getdata block.hash⟩]⟩ =
      handle decode fuel n ⟨a, b', sent⟩ := by
  have hanswer : a.handleConnection decode fuel true b.nodeAddress (.getdata block.hash) =
      some (a, [⟨a.nodeAddress, b.nodeAddress, .block block⟩]) := by
    simp only [Peer.handleConnection, Peer.handleGetData, hget, Option.map_some,
      Peer.sendData_true]
  have hreceive : b.handleConnection decode fuel true a.nodeAddress (.block block) =
      some (b', sent) := hblock
  rw [handle_succ (handleNext_a rfl hanswer), List.nil_append,
    handle_succ (handleNext_b hne rfl hreceive), List.nil_append]

/-- The blocks are fetched one after the other, and the index is rebuilt after the last. -/
theorem handle_fetch (hne : a.nodeAddress ≠ b.nodeAddress) {block : Block} {rest : List Block}
    (hget : ∀ other ∈ block :: rest,
      a.store.getBlock decode other.hash = some (some other))
    {store : BlockStore} (hadd : b.store.addBlocks decode (block :: rest) = some store)
    {chainstate : Bucket} (hreindex : store.reindex decode fuel = some chainstate)
    (htransit : b.blocksInTransit = rest.map Block.hash) :
    handle decode fuel (2 * (rest.length + 1))
        ⟨a, b, [⟨b.nodeAddress, a.nodeAddress, .getdata block.hash⟩]⟩ =
      some ⟨a, { b with store, chainstate, blocksInTransit := [] }, []⟩ := by
  obtain ⟨stored, hstored, hrest⟩ := Option.bind_eq_some_iff.mp hadd
  induction rest generalizing b block stored with
  | nil =>
      cases hrest
      have hblock : b.handleBlock decode fuel true a.nodeAddress block =
          some ({ b with store, chainstate, blocksInTransit := [] }, []) := by
        simp [Peer.handleBlock, hstored, htransit, hreindex]
      exact handle_getdata hne (hget block List.mem_cons_self) hblock 0
  | cons next rest ih =>
      have hblock : b.handleBlock decode fuel true a.nodeAddress block =
          some ({ b with store := stored, blocksInTransit := rest.map Block.hash },
            [⟨b.nodeAddress, a.nodeAddress, .getdata next.hash⟩]) := by
        simp [Peer.handleBlock, hstored, htransit]
      obtain ⟨stored', hstored', hrest'⟩ := Option.bind_eq_some_iff.mp hrest
      have hnext : ∀ other ∈ next :: rest,
          a.store.getBlock decode other.hash = some (some other) :=
        fun other hother => hget other (List.mem_cons_of_mem _ hother)
      rw [List.length_cons, Nat.mul_succ,
        handle_getdata hne (hget block List.mem_cons_self) hblock]
      exact @ih { b with store := stored, blocksInTransit := rest.map Block.hash } hne next
        hnext hrest rfl stored' hstored' hrest'

end Exchange

section Converges

variable {decode : Bytes → Option Block} {fuel : Nat} {a b : Peer} {chain chain' : List Block}
  {height height' : Int}

theorem BlockStore.Complete.getBlock {store : BlockStore} (h : store.Complete chain)
    {block : Block} (hmem : block ∈ chain) :
    store.getBlock decode block.hash = some (some block) := by
  rw [BlockStore.getBlock, if_neg (h.key hmem).2, h.get_hash hmem]

theorem BlockStore.Complete.filter_hashes {store : BlockStore} {top : Block}
    {rest : List Block} (h : store.Complete (top :: rest)) :
    (top.hash :: rest.map Block.hash).filter (· ≠ top.hash) = rest.map Block.hash := by
  rw [List.filter_cons_of_neg (by simp), List.filter_eq_self]
  intro hash hhash
  obtain ⟨block, hblock, rfl⟩ := List.mem_map.mp hhash
  exact decide_eq_true (h.hash_ne_top rfl hblock)

/-- The messages up to the first getdata. -/
theorem handle_greet (hne : a.nodeAddress ≠ b.nodeAddress) {top : Block} {rest : List Block}
    (ha : a.store.Complete (top :: rest)) (hfuel : (top :: rest).length ≤ fuel)
    (hbest : a.store.getBestHeight decode = some height)
    (hbest' : b.store.getBestHeight decode = some height') (hlt : height' < height) (n : Nat) :
    Exchange.sync decode fuel (n + 4) a b =
      Exchange.handle decode fuel n ⟨a.meet b.nodeAddress,
        { b.meet a.nodeAddress with blocksInTransit := rest.map Block.hash },
        [⟨(b.meet a.nodeAddress).nodeAddress, (a.meet b.nodeAddress).nodeAddress,
          .getdata top.hash⟩]⟩ := by
  have hversion : a.handleConnection decode fuel true b.nodeAddress (.version height') =
      some (a.meet b.nodeAddress, [⟨a.nodeAddress, b.nodeAddress, .version height⟩]) := by
    simp [Peer.handleConnection, Peer.handleVersion, Peer.sendVersion, hbest,
      Int.not_lt.mpr (Int.le_of_lt hlt), hlt]
  have hanswer : b.handleConnection decode fuel true a.nodeAddress (.version height) =
      some (b.meet a.nodeAddress, [⟨b.nodeAddress, a.nodeAddress, .getblocks⟩]) := by
    simp [Peer.handleConnection, Peer.handleVersion, hbest', hlt]
  have hblocks : (a.meet b.nodeAddress).handleConnection decode fuel true b.nodeAddress
      .getblocks = some (a.meet b.nodeAddress,
        [⟨a.nodeAddress, b.nodeAddress, .inv ((top :: rest).map Block.hash)⟩]) := by
    have hwalk := ha.walk decode fun block hblock => ha.get_hash hblock
    simp only [Peer.handleConnection, Peer.handleGetBlocks, Peer.meet_store,
      BlockStore.getBlockHashes_eq hwalk hfuel, Option.map_some, Peer.sendData_true,
      Peer.meet_nodeAddress]
  have hinv : (b.meet a.nodeAddress).handleConnection decode fuel true a.nodeAddress
      (.inv ((top :: rest).map Block.hash)) =
      some ({ b.meet a.nodeAddress with blocksInTransit := rest.map Block.hash },
        [⟨(b.meet a.nodeAddress).nodeAddress, (a.meet b.nodeAddress).nodeAddress,
          .getdata top.hash⟩]) := by
    simp only [Peer.handleConnection, Peer.handleInv, List.map_cons, Peer.sendData_true,
      Peer.meet_nodeAddress, ha.filter_hashes]
  have hstart : b.sendVersion decode true a.nodeAddress =
      some (b, [⟨b.nodeAddress, a.nodeAddress, .version height'⟩]) := by
    simp only [Peer.sendVersion, hbest', Option.map_some, Peer.sendData_true]
  have hmet : (a.meet b.nodeAddress).nodeAddress ≠ (b.meet a.nodeAddress).nodeAddress := by
    simpa using hne
  have hmet' : (a.meet b.nodeAddress).nodeAddress ≠ b.nodeAddress := by
    simpa using hne
  simp only [Exchange.sync, hstart, Option.bind_some]
  rw [Exchange.handle_succ (Exchange.handleNext_a rfl hversion), List.nil_append,
    Exchange.handle_succ (Exchange.handleNext_b hmet' rfl hanswer), List.nil_append,
    Exchange.handle_succ (Exchange.handleNext_a (Peer.meet_nodeAddress).symm hblocks),
    List.nil_append,
    Exchange.handle_succ (Exchange.handleNext_b hmet (Peer.meet_nodeAddress).symm hinv),
    List.nil_append]

/-- A server that is behind gets the chain of the other one, and its index. -/
theorem sync_converges (hne : a.nodeAddress ≠ b.nodeAddress) (ha : a.store.Complete chain)
    (hb : b.store.Complete chain')
    (hsame : ∀ key block other, a.store.blocks.get key = some block →
      b.store.blocks.get key = some other → block = other)
    (hbest : a.store.getBestHeight decode = some height)
    (hbest' : b.store.getBestHeight decode = some height') (hlt : height' < height)
    (hfuel : chain.length ≤ fuel)
    (hids : ∀ id, (findUTXO chain).get id ≠ none → Storable id) :
    ∃ n exchange, Exchange.sync decode fuel n a b = some exchange ∧ exchange.Synced chain := by
  obtain ⟨top, rest, hchain, _, _⟩ := ha.top
  obtain ⟨store, hadd, hstored, hlast, htip⟩ := ha.addBlocks hb hbest hbest' hlt hsame
  have hpath : (store.links decode).Path store.tip chain := by
    rw [htip]
    exact ha.walk decode hstored
  obtain ⟨chainstate, hbuilt⟩ := Option.isSome_iff_exists.mp (reindex_isSome.mpr hids)
  have hreindex : store.reindex decode fuel = some chainstate :=
    (BlockStore.reindex_eq hpath hfuel).trans hbuilt
  subst hchain
  have hmet : (a.meet b.nodeAddress).nodeAddress ≠ (b.meet a.nodeAddress).nodeAddress := by
    simpa using hne
  have hget : ∀ block ∈ top :: rest,
      (a.meet b.nodeAddress).store.getBlock decode block.hash = some (some block) := by
    intro block hblock
    rw [Peer.meet_store, ha.getBlock hblock]
  have hadd' : (b.meet a.nodeAddress).store.addBlocks decode (top :: rest) = some store := by
    rw [Peer.meet_store, hadd]
  have hfetch := @Exchange.handle_fetch decode fuel (a.meet b.nodeAddress)
    { b.meet a.nodeAddress with blocksInTransit := rest.map Block.hash } hmet top rest hget
    store hadd' chainstate hreindex rfl
  refine ⟨2 * (rest.length + 1) + 4, _,
    (handle_greet hne ha hfuel hbest hbest' hlt _).trans hfetch, rfl, rfl, hstored, ?_, ?_, ?_⟩
  · rw [Peer.meet_store]
    exact htip
  · rw [Peer.meet_store, ha.last]
    exact hlast
  · intro id
    exact reindex_get hbuilt id

end Converges

section TwoServers

/-! A server has one block more than the other, with a coinbase transaction of some ID. -/

def nextBlock (store : BlockStore) (id : Bytes) : Block :=
  ⟨0, [⟨id, [⟨[], -1, [], []⟩], [⟨10, [8]⟩]⟩], store.last, [1], 0, 1⟩

def aheadStore (store : BlockStore) (id : Bytes) : BlockStore :=
  ⟨store.blocks.set [1] (some (nextBlock store id)), [1], [1]⟩

def ahead (store : BlockStore) (id : Bytes) : Peer :=
  .startServer "localhost:3000" (aheadStore store id) ∅

def behind (store : BlockStore) : Peer :=
  .startServer "localhost:3001" store ∅

theorem BlockStore.Linked.get_last {store : BlockStore} {genesis : Block}
    (h : store.Linked [genesis]) : store.blocks.get store.last = some genesis := by
  obtain ⟨first, _, hchain, hget⟩ := h.path.head
  obtain ⟨rfl, _⟩ := List.cons.inj hchain
  exact hget

theorem BlockStore.Linked.storable {store : BlockStore} {genesis : Block}
    (h : store.Linked [genesis]) (hlength : genesis.hash.length = 32) (key : Bytes)
    (block : Block) (hget : store.blocks.get key = some block) : Storable key := by
  obtain ⟨rfl, hmem⟩ := h.all key block hget
  obtain rfl := List.mem_singleton.mp hmem
  exact storable_of_length hlength

theorem BlockStore.Linked.complete_ahead {store : BlockStore} {genesis : Block}
    (h : store.Linked [genesis]) (hlength : genesis.hash.length = 32)
    (hnew : store.contains [1] = false) (id : Bytes) :
    (ahead store id).store.Complete [nextBlock store id, genesis] := by
  change (aheadStore store id).Complete [nextBlock store id, genesis]
  have hextend : (aheadStore store id).Linked [nextBlock store id, genesis] :=
    @Linked.extend store [genesis] h (nextBlock store id) hnew (by simp [nextBlock]) rfl rfl
  refine hextend.complete ?_
  intro key block hget
  by_cases heq : key = [1]
  · rw [heq]
    decide
  · rw [aheadStore, Lib.Mapping.get_set_of_ne _ _ heq] at hget
    exact h.storable hlength key block hget

theorem BlockStore.Linked.complete_behind {store : BlockStore} {genesis : Block}
    (h : store.Linked [genesis]) (hlength : genesis.hash.length = 32) :
    (behind store).store.Complete [genesis] :=
  h.complete (h.storable hlength)

theorem ahead_height (store : BlockStore) (id : Bytes) (decode : Bytes → Option Block) :
    (ahead store id).store.getBestHeight decode = some 1 := by
  have hkey : ([1] : Bytes) ≠ lastKey := by decide
  have hlast : (aheadStore store id).get decode [1] = some (nextBlock store id) :=
    (BlockStore.get_of_ne hkey).trans (Lib.Mapping.get_set_self _ _ _)
  exact congrArg (Option.map Block.height) hlast

theorem ahead_same {store : BlockStore} (hnew : store.contains [1] = false) (id : Bytes)
    (key : Bytes) (block other : Block)
    (hget : (ahead store id).store.blocks.get key = some block)
    (hother : (behind store).store.blocks.get key = some other) : block = other := by
  have hold : store.blocks.get key = some other := hother
  have hne : key ≠ [1] := by
    rintro rfl
    rw [(BlockStore.contains_eq_false.mp hnew).2] at hold
    cases hold
  have hkept : (store.blocks.set [1] (some (nextBlock store id))).get key = some block := hget
  rw [Lib.Mapping.get_set_of_ne _ _ hne, hold] at hkept
  exact (Option.some.inj hkept).symm

/-- Where the genesis block and the next one have IDs that a bucket takes, so does the
index. -/
theorem storable_findUTXO {store : BlockStore} {genesis : Block} {id : Bytes}
    (hid : Storable id) (hids : ∀ tx ∈ genesis.transactions, Storable tx.id) (key : Bytes)
    (hkey : (findUTXO [nextBlock store id, genesis]).get key ≠ none) : Storable key := by
  have hmem : key ∈ (transactions [nextBlock store id, genesis]).map (·.id) := by
    by_contra hnot
    exact hkey (findUTXO_get_of_notMem hnot)
  obtain ⟨tx, htx, rfl⟩ := List.mem_map.mp hmem
  rcases List.mem_append.mp htx with hnew | hold
  · obtain rfl := List.mem_singleton.mp hnew
    exact hid
  · exact hids tx (by simpa using hold)

theorem newStore_next : newStore.contains [1] = false := by
  decide +kernel

theorem newStore_genesis : (newStore.blocks.get newStore.last).all fun block =>
    block.hash.length = 32 && block.transactions.all fun tx => tx.id.length = 32 := by
  decide +kernel

theorem linked_newStore : ∃ genesis, newStore.Linked [genesis] ∧
    genesis.hash.length = 32 ∧ ∀ tx ∈ genesis.transactions, Storable tx.id := by
  obtain ⟨genesis, h⟩ := BlockStore.linked_createBlockchain sumCrypto_length
    createBlockchain_newStore
  have hread := newStore_genesis
  rw [h.get_last, Option.all_some, Bool.and_eq_true, List.all_eq_true] at hread
  refine ⟨genesis, h, of_decide_eq_true hread.1, fun tx htx => ?_⟩
  exact BlockStore.storable_of_length (of_decide_eq_true (hread.2 tx htx))

theorem behind_height : (behind newStore).store.getBestHeight (fun _ => none) = some 0 := by
  decide +kernel

theorem sync_converges_two : ∃ chain : Chain, chain.length = 2 ∧ ∃ n exchange,
    Exchange.sync (fun _ => none) 2 n (ahead newStore [9]) (behind newStore) = some exchange ∧
      exchange.Synced chain := by
  obtain ⟨genesis, h, hlength, hids⟩ := linked_newStore
  exact ⟨_, rfl, sync_converges (by decide) (h.complete_ahead hlength newStore_next [9])
    (h.complete_behind hlength) (ahead_same newStore_next [9]) (ahead_height _ _ _)
    behind_height (by decide) (Nat.le_refl 2) (storable_findUTXO (by decide) hids)⟩

/-- The empty ID is no key of a bucket. -/
theorem sync_stuck : ¬ ∀ (decode : Bytes → Option Block) (fuel : Nat) (a b : Peer)
    (chain chain' : List Block) (height height' : Int), a.nodeAddress ≠ b.nodeAddress →
    a.store.Complete chain → b.store.Complete chain' → chain.getLast? = chain'.getLast? →
    (∀ key block other, a.store.blocks.get key = some block →
      b.store.blocks.get key = some other → block = other) →
    a.store.getBestHeight decode = some height →
    b.store.getBestHeight decode = some height' → height' < height → chain.length ≤ fuel →
    ∃ n exchange, Exchange.sync decode fuel n a b = some exchange ∧ exchange.Synced chain := by
  intro hall
  obtain ⟨genesis, h, hlength, _⟩ := linked_newStore
  obtain ⟨n, exchange, hsync, hsynced⟩ := hall (fun _ => none) 2 (ahead newStore [])
    (behind newStore) _ _ 1 0 (by decide) (h.complete_ahead hlength newStore_next [])
    (h.complete_behind hlength) rfl (ahead_same newStore_next []) (ahead_height _ _ _)
    behind_height (by decide) (Nat.le_refl 2)
  have hbefore : ∀ n < 8, (Exchange.sync (fun _ => none) 2 n (ahead newStore [])
      (behind newStore)).all fun exchange => !exchange.inFlight.isEmpty := by
    decide +kernel
  have hpanic : (Exchange.sync (fun _ => none) 2 8 (ahead newStore [])
      (behind newStore)).isNone := by
    decide +kernel
  by_cases hn : n < 8
  · have hmessage := hbefore n hn
    rw [hsync, Option.all_some, hsynced.quiet] at hmessage
    cases hmessage
  · obtain ⟨m, rfl⟩ := Nat.exists_eq_add_of_le (Nat.not_lt.mp hn)
    rw [Exchange.sync_add, Option.isNone_iff_eq_none.mp hpanic] at hsync
    cases hsync

end TwoServers

end BlockchainTutorial.Bitcoin
