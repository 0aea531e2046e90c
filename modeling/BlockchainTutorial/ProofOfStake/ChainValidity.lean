import BlockchainTutorial.ProofOfStake.Server

namespace BlockchainTutorial.ProofOfStake

section Blocks

variable (sha256 : String → List UInt8)

/-- Each pair of consecutive blocks is valid. -/
def ChainValid (chain : List Block) : Prop :=
  ∀ i oldBlock newBlock, chain[i]? = some oldBlock → chain[i + 1]? = some newBlock →
    isBlockValid sha256 newBlock oldBlock = true

/-- The block was made for a block of the chain. -/
def MadeFor (chain : List Block) (block : Block) : Prop :=
  ∃ oldBlock ∈ chain, isBlockValid sha256 block oldBlock = true

variable {sha256}

theorem MadeFor.append {chain : List Block} {block : Block} (h : MadeFor sha256 chain block)
    (more : List Block) : MadeFor sha256 (chain ++ more) block := by
  obtain ⟨oldBlock, hmem, hvalid⟩ := h
  exact ⟨oldBlock, List.mem_append_left _ hmem, hvalid⟩

theorem chainValid_append_iff {chain : List Block} (h : ChainValid sha256 chain)
    {tip : Block} (htip : chain.getLast? = some tip) (block : Block) :
    ChainValid sha256 (chain ++ [block]) ↔ isBlockValid sha256 block tip = true := by
  have hlast : chain[chain.length - 1]? = some tip := by
    rw [← List.getLast?_eq_getElem?, htip]
  have hpos : 0 < chain.length := by
    cases chain with
    | nil => cases htip
    | cons first rest => exact Nat.succ_pos _
  constructor
  · intro hvalid
    refine hvalid (chain.length - 1) tip block ?_ ?_
    · rw [List.getElem?_append_left (by omega), hlast]
    · rw [Nat.sub_add_cancel hpos, List.getElem?_concat_length]
  · intro hblock i oldBlock newBlock hold hnew
    have hi : i + 1 < (chain ++ [block]).length := (List.getElem?_eq_some_iff.mp hnew).1
    rw [List.length_append, List.length_singleton] at hi
    rw [List.getElem?_append_left (by omega)] at hold
    by_cases hend : i + 1 = chain.length
    · rw [hend, List.getElem?_concat_length] at hnew
      have hi : i = chain.length - 1 := by omega
      rw [hi, hlast] at hold
      cases hold
      cases hnew
      exact hblock
    · rw [List.getElem?_append_left (by omega)] at hnew
      exact h i oldBlock newBlock hold hnew

/-- In a valid chain from a genesis block the blocks are numbered. -/
theorem index_eq {chain : List Block} (h : ChainValid sha256 chain)
    (hgenesis : ∀ first, chain[0]? = some first → first.index = 0) {i : Nat} {block : Block}
    (hblock : chain[i]? = some block) : block.index = i := by
  induction i generalizing block with
  | zero => exact hgenesis block hblock
  | succ i ih =>
      have hi := (List.getElem?_eq_some_iff.mp hblock).1
      have hprevious : chain[i]? = some chain[i] := List.getElem?_eq_getElem (by omega)
      have hindex := (isBlockValid_iff.mp (h i _ block hprevious hblock)).1
      rw [← hindex, ih hprevious]
      rfl

/-- A block that was made for a block of the chain fits the last one when its number is the
next one. -/
theorem fits_tip_iff {chain : List Block} (h : ChainValid sha256 chain)
    (hgenesis : ∀ first, chain[0]? = some first → first.index = 0) {tip block : Block}
    (htip : chain.getLast? = some tip) (hmade : MadeFor sha256 chain block) :
    isBlockValid sha256 block tip = true ↔ block.index = chain.length := by
  have hlast : chain[chain.length - 1]? = some tip := by
    rw [← List.getLast?_eq_getElem?, htip]
  have hlength := (List.getElem?_eq_some_iff.mp hlast).1
  have htipIndex := index_eq h hgenesis hlast
  constructor
  · intro hvalid
    have hindex := (isBlockValid_iff.mp hvalid).1
    omega
  · intro hnext
    obtain ⟨oldBlock, hmem, hvalid⟩ := hmade
    obtain ⟨i, hi, hold⟩ := List.getElem_of_mem hmem
    have hfound : chain[i]? = some oldBlock := by rw [List.getElem?_eq_getElem hi, hold]
    have hindex := (isBlockValid_iff.mp hvalid).1
    rw [index_eq h hgenesis hfound, hnext] at hindex
    have hlastIndex : i = chain.length - 1 := by omega
    rw [hlastIndex, hlast] at hfound
    cases hfound
    exact hvalid

end Blocks

/-! The candidates on their way to the chain. -/

def Picker.temp : Picker → List Block
  | .filling temp _ _ => temp
  | .drawn temp _ => temp
  | _ => []

namespace Server

variable {sha256 : String → List UInt8} {server server' : Server}

def StageRight (sha256 : String → List UInt8) (chain : List Block) : Stage → Prop
  | .waiting => True
  | .generating oldLastIndex => oldLastIndex ∈ chain
  | .sending newBlock => MadeFor sha256 chain newBlock

theorem StageRight.append {chain : List Block} {stage : Stage}
    (h : StageRight sha256 chain stage) (more : List Block) :
    StageRight sha256 (chain ++ more) stage := by
  cases stage with
  | waiting => trivial
  | generating oldLastIndex => exact List.mem_append_left _ h
  | sending newBlock => exact MadeFor.append h more

structure InFlight (sha256 : String → List UInt8) (server : Server) : Prop where
  handlers : ∀ handler ∈ server.handlers, StageRight sha256 server.blockchain handler.stage
  collector : ∀ block ∈ server.collector, MadeFor sha256 server.blockchain block
  tempBlocks : ∀ block ∈ server.tempBlocks, MadeFor sha256 server.blockchain block
  picker : ∀ block ∈ server.picker.temp, MadeFor sha256 server.blockchain block

theorem InFlight.setStage (h : InFlight sha256 server) (i : Nat) (handler : Handler)
    {stage : Stage} (hstage : StageRight sha256 server.blockchain stage) :
    InFlight sha256 (server.setStage i handler stage) where
  handlers := by
    intro other hother
    rcases List.mem_or_eq_of_mem_set hother with hmem | rfl
    · exact h.handlers other hmem
    · exact hstage
  collector := h.collector
  tempBlocks := h.tempBlocks
  picker := h.picker

theorem InFlight.connect (h : InFlight sha256 server) (address : String)
    (balance : Option Int) : InFlight sha256 (server.connect address balance) where
  handlers := by
    intro handler hmem
    rcases List.mem_append.mp hmem with hold | hnew
    · exact h.handlers handler hold
    · obtain rfl := List.mem_singleton.mp hnew
      trivial
  collector := h.collector
  tempBlocks := h.tempBlocks
  picker := h.picker

theorem InFlight.setPicker (h : InFlight sha256 server) {picker : Picker}
    (htemp : ∀ block ∈ picker.temp, MadeFor sha256 server.blockchain block) :
    InFlight sha256 { server with picker } :=
  ⟨h.handlers, h.collector, h.tempBlocks, htemp⟩

theorem InFlight.winningBlock (h : InFlight sha256 server) {block : Block}
    (hwin : server.winningBlock = some block) : MadeFor sha256 server.blockchain block := by
  have htemp := h.picker
  unfold Server.winningBlock at hwin
  split at hwin
  · rename_i hpicker
    rw [hpicker] at htemp
    exact htemp block (List.mem_of_find?_eq_some hwin)
  · cases hwin

theorem InFlight.step (h : InFlight sha256 server) {action : Action}
    (hstep : server.step sha256 action = some server') : InFlight sha256 server' := by
  cases action with
  | connect address balance =>
      cases hstep
      exact h.connect address balance
  | remove i =>
      obtain ⟨handler, _, rfl⟩ := remove_cases hstep
      exact ⟨h.handlers, h.collector, h.tempBlocks, h.picker⟩
  | read i =>
      obtain ⟨address, oldLastIndex, _, htip, rfl⟩ := read_cases hstep
      exact h.setStage i _ (List.mem_of_getLast? htip)
  | generate i timestamp bpm =>
      obtain ⟨address, oldLastIndex, hhandler, rfl⟩ := generate_cases hstep
      exact h.setStage i _ ⟨oldLastIndex, h.handlers _ (List.mem_of_getElem? hhandler),
        generateBlock_valid oldLastIndex timestamp bpm address⟩
  | send i =>
      obtain ⟨address, newBlock, hhandler, _, rfl⟩ := send_cases hstep
      have hmade : MadeFor sha256 server.blockchain newBlock :=
        h.handlers _ (List.mem_of_getElem? hhandler)
      have hwaiting : InFlight sha256 (server.setStage i ⟨address, .waiting⟩ .waiting) :=
        h.setStage i _ trivial
      refine ⟨hwaiting.handlers, ?_, h.tempBlocks, h.picker⟩
      intro block hblock
      cases hblock
      exact hmade
  | collect =>
      obtain ⟨candidate, hcollector, rfl⟩ := collect_cases hstep
      refine ⟨h.handlers, nofun, ?_, h.picker⟩
      intro block hblock
      rcases List.mem_append.mp hblock with hold | hnew
      · exact h.tempBlocks block hold
      · obtain rfl := List.mem_singleton.mp hnew
        exact h.collector block hcollector
  | snapshot =>
      obtain ⟨_, ⟨_, rfl⟩ | ⟨_, rfl⟩⟩ := snapshot_cases hstep
      · exact h.setPicker nofun
      · exact h.setPicker h.tempBlocks
  | fill =>
      obtain ⟨temp, block, rest, lotteryPool, hpicker, rfl⟩ := fill_cases hstep
      have htemp := h.picker
      rw [hpicker] at htemp
      exact h.setPicker htemp
  | draw r =>
      obtain ⟨temp, lotteryPool, lotteryWinner, hpicker, _, rfl⟩ := draw_cases hstep
      have htemp := h.picker
      rw [hpicker] at htemp
      exact h.setPicker htemp
  | forge =>
      obtain ⟨temp, lotteryWinner, _, rfl⟩ := forge_cases hstep
      exact ⟨fun handler hmem => (h.handlers handler hmem).append _,
        fun block hmem => (h.collector block hmem).append _,
        fun block hmem => (h.tempBlocks block hmem).append _, nofun⟩
  | clear =>
      obtain ⟨_, rfl⟩ := clear_cases hstep
      exact ⟨h.handlers, h.collector, nofun, nofun⟩

theorem inFlight_start (timestamp : String) : InFlight sha256 (start sha256 timestamp) :=
  ⟨nofun, nofun, nofun, nofun⟩

/-! The chain itself. Only `forge` appends to it. -/

theorem blockchain_step {action : Action} (hstep : server.step sha256 action = some server')
    (hforge : action ≠ .forge) : server'.blockchain = server.blockchain := by
  cases action with
  | connect address balance =>
      cases hstep
      rfl
  | remove i =>
      obtain ⟨handler, _, rfl⟩ := remove_cases hstep
      rfl
  | read i =>
      obtain ⟨address, oldLastIndex, _, _, rfl⟩ := read_cases hstep
      rfl
  | generate i timestamp bpm =>
      obtain ⟨address, oldLastIndex, _, rfl⟩ := generate_cases hstep
      rfl
  | send i =>
      obtain ⟨address, newBlock, _, _, rfl⟩ := send_cases hstep
      rfl
  | collect =>
      obtain ⟨candidate, _, rfl⟩ := collect_cases hstep
      rfl
  | snapshot =>
      obtain ⟨_, ⟨_, rfl⟩ | ⟨_, rfl⟩⟩ := snapshot_cases hstep <;> rfl
  | fill =>
      obtain ⟨temp, block, rest, lotteryPool, _, rfl⟩ := fill_cases hstep
      rfl
  | draw r =>
      obtain ⟨temp, lotteryPool, lotteryWinner, _, _, rfl⟩ := draw_cases hstep
      rfl
  | forge => exact absurd rfl hforge
  | clear =>
      obtain ⟨_, rfl⟩ := clear_cases hstep
      rfl

theorem blockchain_forge (hstep : server.forge = some server') :
    server'.blockchain = server.blockchain ++ server.winningBlock.toList := by
  obtain ⟨temp, lotteryWinner, _, rfl⟩ := forge_cases hstep
  rfl

structure Rooted (server : Server) : Prop where
  tip : ∃ block, server.blockchain.getLast? = some block
  genesis : ∀ first, server.blockchain[0]? = some first → first.index = 0

theorem Rooted.step (h : Rooted server) {action : Action}
    (hstep : server.step sha256 action = some server') : Rooted server' := by
  obtain ⟨block, htip⟩ := h.tip
  by_cases hforge : action = .forge
  · subst hforge
    have hchain : server'.blockchain = server.blockchain ++ server.winningBlock.toList :=
      blockchain_forge hstep
    constructor
    · rw [hchain, List.getLast?_append, htip]
      cases server.winningBlock.toList.getLast? with
      | none => exact ⟨block, rfl⟩
      | some last => exact ⟨last, rfl⟩
    · intro first hfirst
      refine h.genesis first ?_
      have hpos : 0 < server.blockchain.length := by
        rw [List.length_pos_iff]
        rintro hnil
        rw [hnil] at htip
        cases htip
      rwa [hchain, List.getElem?_append_left hpos] at hfirst
  · constructor
    · exact ⟨block, by rw [blockchain_step hstep hforge, htip]⟩
    · rw [blockchain_step hstep hforge]
      exact h.genesis

/-- When a block is forged, no other one was appended since `handleConn` had read the last
block for it. -/
def Current (server : Server) (action : Action) : Prop :=
  action = .forge → ∀ block ∈ server.winningBlock, block.index = server.blockchain.length

theorem chainValid_step_iff (hflight : InFlight sha256 server) (hrooted : Rooted server)
    (hvalid : ChainValid sha256 server.blockchain) {action : Action}
    (hstep : server.step sha256 action = some server') :
    ChainValid sha256 server'.blockchain ↔ Current server action := by
  by_cases hforge : action = .forge
  · subst hforge
    have hchain : server'.blockchain = server.blockchain ++ server.winningBlock.toList :=
      blockchain_forge hstep
    obtain ⟨tip, htip⟩ := hrooted.tip
    rw [hchain]
    cases hwin : server.winningBlock with
    | none =>
        rw [Option.toList_none, List.append_nil]
        refine ⟨fun _ _ block hblock => ?_, fun _ => hvalid⟩
        rw [hwin] at hblock
        cases hblock
    | some block =>
        have hmade := hflight.winningBlock hwin
        rw [Option.toList_some, chainValid_append_iff hvalid htip,
          fits_tip_iff hvalid hrooted.genesis htip hmade]
        constructor
        · intro hindex _ other hother
          rw [hwin] at hother
          cases hother
          exact hindex
        · intro hcurrent
          exact hcurrent rfl block hwin
  · rw [blockchain_step hstep hforge]
    exact ⟨fun _ heq => absurd heq hforge, fun _ => hvalid⟩

theorem rooted_start (timestamp : String) : Rooted (start sha256 timestamp) := by
  refine ⟨⟨_, rfl⟩, ?_⟩
  intro first hfirst
  cases hfirst
  rfl

theorem chainValid_start (timestamp : String) :
    ChainValid sha256 (start sha256 timestamp).blockchain := by
  intro i oldBlock newBlock _ hnew
  cases hnew

end Server

variable {sha256 : String → List UInt8} {timestamp : String}

/-- The chain is valid all the time when every block is forged on the last one that its
maker has read. -/
theorem chain_valid_iff
    (run : Lib.Run (Server.start sha256 timestamp) (Server.step sha256)) :
    (∀ k, k ≤ run.length → ChainValid sha256 (run.state k).blockchain) ↔
      run.AllSteps Server.Current := by
  have hflight := run.invariant (Server.inFlight_start timestamp)
    fun _ _ _ h hstep => h.step hstep
  have hrooted := run.invariant (Server.rooted_start timestamp)
    fun _ _ _ h hstep => h.step hstep
  constructor
  · intro hvalid k hk
    exact (Server.chainValid_step_iff (hflight k (by omega)) (hrooted k (by omega))
      (hvalid k (by omega)) (run.steps k hk)).mp (hvalid (k + 1) hk)
  · intro hcurrent
    refine run.induct ?_ ?_
    · rw [run.starts]
      exact Server.chainValid_start timestamp
    · intro k hk hvalid
      exact (Server.chainValid_step_iff (hflight k (by omega)) (hrooted k (by omega))
        hvalid (run.steps k hk)).mpr (hcurrent k hk)

/-- Ann's and Bob's candidates are made, and Ann's block is appended. -/
def firstRound : List Action :=
  [.connect "Ann" (some 1), .connect "Bob" (some 1), .read 0, .generate 0 "noon" 70, .read 1,
    .generate 1 "noon" 80, .send 0, .collect, .snapshot, .fill, .draw 0, .forge, .clear]

/-- Bob's candidate is collected, and appended in its turn. -/
def secondRound : List Action :=
  [.send 1, .collect, .snapshot, .fill, .draw 0, .forge]

/-- No hash function helps. -/
theorem exists_invalid (sha256 : String → List UInt8) (timestamp : String) :
    ∃ run : Lib.Run (Server.start sha256 timestamp) (Server.step sha256),
      ¬ ChainValid sha256 (run.state run.length).blockchain := by
  have hann : (((∅ : Lib.Mapping String (Option Int)).set "Ann" (some 1)).set "Bob"
      (some 1)).get "Ann" = some 1 := by
    rw [Lib.Mapping.get_set_of_ne _ _ (by decide), Lib.Mapping.get_set_self]
  have hbob : (((∅ : Lib.Mapping String (Option Int)).set "Ann" (some 1)).set "Bob"
      (some 1)).get "Bob" = some 1 := Lib.Mapping.get_set_self _ _ _
  let genesis := genesisBlock sha256 timestamp
  let blockOfAnn := generateBlock sha256 genesis "noon" 70 "Ann"
  let blockOfBob := generateBlock sha256 genesis "noon" 80 "Bob"
  have hfirst : Lib.exec (Server.step sha256) (Server.start sha256 timestamp) firstRound =
      some ⟨[genesis, blockOfAnn], [],
        ((∅ : Lib.Mapping String (Option Int)).set "Ann" (some 1)).set "Bob" (some 1),
        [⟨"Ann", .waiting⟩, ⟨"Bob", .sending blockOfBob⟩], none, .sleeping⟩ := by
    simp [firstRound, Lib.exec, Server.step, Server.start, Server.connect, Server.read,
      Server.generate, Server.send, Server.collect, Server.snapshot, Server.fill, Server.draw,
      Server.forge, Server.clear, Server.setStage, generateBlock_valid, Server.winningBlock,
      Server.tickets, hann, genesis, blockOfAnn, blockOfBob]
  have hexec : (Lib.exec (Server.step sha256) (Server.start sha256 timestamp)
      (firstRound ++ secondRound)).map Server.blockchain =
      some [genesis, blockOfAnn, blockOfBob] := by
    rw [Lib.exec_append, hfirst]
    simp [secondRound, Lib.exec, Server.step, Server.send, Server.collect, Server.snapshot,
      Server.fill, Server.draw, Server.forge, Server.setStage, Server.winningBlock,
      Server.tickets, hbob, blockOfBob]
  obtain ⟨run, _, hchain⟩ := Lib.Run.exists_of_exec hexec
  refine ⟨run, fun hvalid => ?_⟩
  rw [hchain] at hvalid
  have hnumber : blockOfAnn.index + 1 = blockOfBob.index :=
    (isBlockValid_iff.mp (hvalid 1 _ _ rfl rfl)).1
  simp [blockOfAnn, blockOfBob, generateBlock] at hnumber

theorem late_candidate_appended :
    ¬ ∀ (sha256 : String → List UInt8) (timestamp : String)
      (run : Lib.Run (Server.start sha256 timestamp) (Server.step sha256)),
      ∀ k, k ≤ run.length → ChainValid sha256 (run.state k).blockchain := by
  intro h
  obtain ⟨run, hinvalid⟩ := exists_invalid (fun _ => []) "midnight"
  exact hinvalid (h _ _ run run.length (Nat.le_refl _))

end BlockchainTutorial.ProofOfStake
