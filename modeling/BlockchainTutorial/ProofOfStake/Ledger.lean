import BlockchainTutorial.ProofOfStake.ChainValidity

namespace BlockchainTutorial.ProofOfStake

open Server

variable {sha256 : String → List UInt8} {timestamp : String}

/-! What the chain of the server consists of, whoever wins. -/

/-- The block that a connection puts on `candidateBlocks`. -/
def Server.sentBlock (server : Server) : Action → Option Block
  | .send i =>
      match server.handlers[i]? with
      | some ⟨_, .sending newBlock⟩ => some newBlock
      | _ => none
  | _ => none

/-- The names that `pickWinner` may still draw, or has drawn. -/
def Picker.names : Picker → List String
  | .filling _ _ lotteryPool => lotteryPool
  | .drawn _ lotteryWinner => [lotteryWinner]
  | _ => []

/-- The blocks in `tempBlocks` that may still win: none once a round is over. -/
def Server.pending (server : Server) : List Block :=
  match server.picker with
  | .clearing => []
  | _ => server.tempBlocks

/-- Every block but the first was made for one before it. -/
def Grown (sha256 : String → List UInt8) (chain : List Block) : Prop :=
  ∀ p block, chain[p]? = some block → 1 ≤ p →
    ∃ q oldBlock, q < p ∧ chain[q]? = some oldBlock ∧ isBlockValid sha256 block oldBlock = true

theorem Grown.append {chain : List Block} (h : Grown sha256 chain) {block : Block}
    (hmade : MadeFor sha256 chain block) : Grown sha256 (chain ++ [block]) := by
  intro p other hother hp
  rcases Nat.lt_or_ge p chain.length with hlt | hge
  · rw [List.getElem?_append_left hlt] at hother
    obtain ⟨q, oldBlock, hq, hold, hvalid⟩ := h p other hother hp
    exact ⟨q, oldBlock, hq, by rw [List.getElem?_append_left (hq.trans hlt), hold], hvalid⟩
  · rw [List.getElem?_append_right hge] at hother
    obtain ⟨_, rfl⟩ := List.getElem?_eq_some_iff.mp hother
    obtain ⟨oldBlock, hmem, hvalid⟩ := hmade
    obtain ⟨q, hq, hold⟩ := List.getElem_of_mem hmem
    refine ⟨q, oldBlock, hq.trans_le hge, ?_, by rwa [List.getElem_singleton]⟩
    rw [List.getElem?_append_left hq, List.getElem?_eq_getElem hq, hold]

/-- The number of a block is how many blocks lie below it, which may be fewer than the
chain has. -/
theorem Grown.index_le {chain : List Block} (h : Grown sha256 chain)
    (hgenesis : ∀ first, chain[0]? = some first → first.index = 0) {p : Nat} {block : Block}
    (hblock : chain[p]? = some block) : 0 ≤ block.index ∧ block.index ≤ p := by
  induction p using Nat.strong_induction_on generalizing block with
  | _ p ih =>
      rcases Nat.eq_zero_or_pos p with rfl | hp
      · rw [hgenesis block hblock]
        exact ⟨le_rfl, le_rfl⟩
      · obtain ⟨q, oldBlock, hq, hold, hvalid⟩ := h p block hblock hp
        have hindex := (isBlockValid_iff.mp hvalid).1
        have hbelow := ih q hq hold
        omega

namespace Server

variable {server server' : Server}

theorem mem_tickets {validators : Lib.Mapping String (Option Int)} {lotteryPool : List String}
    {validator name : String} (h : name ∈ tickets validators lotteryPool validator) :
    name ∈ lotteryPool ∨ ∃ k, validators.get name = some k ∧ 0 < k := by
  unfold tickets at h
  split at h
  · exact .inl h
  · split at h
    · rename_i k hk
      rcases List.mem_append.mp h with hold | hnew
      · exact .inl hold
      · obtain ⟨hpos, rfl⟩ := List.mem_replicate.mp hnew
        exact .inr ⟨k, hk, by omega⟩
    · exact .inl h

theorem validators_step {action : Action} (hstep : server.step sha256 action = some server')
    {address : String} {balance : Int} (h : server'.validators.get address = some balance) :
    server.validators.get address = some balance ∨
      action = .connect address (some balance) := by
  cases action with
  | connect other put =>
      cases hstep
      cases put with
      | none => exact .inl h
      | some k =>
          by_cases heq : address = other
          · subst heq
            simp only [connect, Lib.Mapping.get_set_self, Option.some.injEq] at h
            exact .inr (by rw [h])
          · simp only [connect] at h
            rw [Lib.Mapping.get_set_of_ne _ _ heq] at h
            exact .inl h
  | remove i =>
      obtain ⟨handler, _, rfl⟩ := remove_cases hstep
      by_cases heq : address = handler.address
      · subst heq
        rw [Lib.Mapping.get_set_self] at h
        cases h
      · rw [Lib.Mapping.get_set_of_ne _ _ heq] at h
        exact .inl h
  | read i =>
      obtain ⟨_, _, _, _, rfl⟩ := read_cases hstep
      exact .inl h
  | generate i timestamp bpm =>
      obtain ⟨_, _, _, rfl⟩ := generate_cases hstep
      exact .inl h
  | send i =>
      obtain ⟨_, _, _, _, rfl⟩ := send_cases hstep
      exact .inl h
  | collect =>
      obtain ⟨_, _, rfl⟩ := collect_cases hstep
      exact .inl h
  | snapshot =>
      obtain ⟨_, ⟨_, rfl⟩ | ⟨_, rfl⟩⟩ := snapshot_cases hstep <;> exact .inl h
  | fill =>
      obtain ⟨_, _, _, _, _, rfl⟩ := fill_cases hstep
      exact .inl h
  | draw r =>
      obtain ⟨_, _, _, _, _, rfl⟩ := draw_cases hstep
      exact .inl h
  | forge =>
      obtain ⟨_, _, _, rfl⟩ := forge_cases hstep
      exact .inl h
  | clear =>
      obtain ⟨_, rfl⟩ := clear_cases hstep
      exact .inl h

/-- What a step does to the blocks on their way to the chain. -/
inductive LedgerStep (server : Server) (action : Action) (server' : Server) : Prop
  | kept (hsent : server.sentBlock action = none) (hchain : server'.blockchain = server.blockchain)
      (htemp : server'.tempBlocks = server.tempBlocks)
      (hcollector : server'.collector = server.collector)
      (hpicker : server'.picker = server.picker)
  | sent (newBlock : Block) (hsent : server.sentBlock action = some newBlock)
      (hnone : server.collector = none) (hchain : server'.blockchain = server.blockchain)
      (htemp : server'.tempBlocks = server.tempBlocks)
      (hcollector : server'.collector = some newBlock)
      (hpicker : server'.picker = server.picker)
  | collected (candidate : Block) (hsent : server.sentBlock action = none)
      (hsome : server.collector = some candidate)
      (hform : server' = { server with
        tempBlocks := server.tempBlocks ++ [candidate]
        collector := none })
  | picked (picker : Picker) (hsent : server.sentBlock action = none)
      (hform : server' = { server with picker })
      (htemp : picker.temp = server.picker.temp ∨ picker.temp = server.tempBlocks ∨
        picker.temp = [])
      (hpending : server'.pending = server.pending)
      (hnames : ∀ name ∈ picker.names, name ∈ server.picker.names ∨
        ∃ k, server.validators.get name = some k ∧ 0 < k)
  | forged (hsent : server.sentBlock action = none)
      (hdrawn : ∃ temp lotteryWinner, server.picker = .drawn temp lotteryWinner)
      (hform : server' = { server with
        blockchain := server.blockchain ++ server.winningBlock.toList
        picker := .clearing })
  | cleared (hsent : server.sentBlock action = none) (hclearing : server.picker = .clearing)
      (hform : server' = { server with
        tempBlocks := []
        picker := .sleeping })

theorem ledgerStep {action : Action} (hstep : server.step sha256 action = some server') :
    LedgerStep server action server' := by
  cases action with
  | connect address balance =>
      cases hstep
      exact .kept rfl rfl rfl rfl rfl
  | remove i =>
      obtain ⟨handler, _, rfl⟩ := remove_cases hstep
      exact .kept rfl rfl rfl rfl rfl
  | read i =>
      obtain ⟨_, _, _, _, rfl⟩ := read_cases hstep
      exact .kept rfl rfl rfl rfl rfl
  | generate i timestamp bpm =>
      obtain ⟨_, _, _, rfl⟩ := generate_cases hstep
      exact .kept rfl rfl rfl rfl rfl
  | send i =>
      obtain ⟨_, newBlock, hhandler, hnone, rfl⟩ := send_cases hstep
      exact .sent newBlock (by rw [sentBlock, hhandler]) hnone rfl rfl rfl rfl
  | collect =>
      obtain ⟨candidate, hsome, rfl⟩ := collect_cases hstep
      exact .collected candidate rfl hsome rfl
  | snapshot =>
      obtain ⟨hsleeping, ⟨hnil, rfl⟩ | ⟨_, rfl⟩⟩ := snapshot_cases hstep
      · refine .picked _ rfl rfl (.inr (.inr rfl)) ?_ nofun
        rw [pending, pending, hsleeping, hnil]
      · refine .picked _ rfl rfl (.inr (.inl rfl)) ?_ nofun
        rw [pending, pending, hsleeping]
  | fill =>
      obtain ⟨_, _, _, _, hpicker, rfl⟩ := fill_cases hstep
      refine .picked _ rfl rfl (.inl ?_) ?_ fun name hname => ?_
      · rw [hpicker]
        rfl
      · rw [pending, pending, hpicker]
      · rw [hpicker]
        exact mem_tickets hname
  | draw r =>
      obtain ⟨_, _, _, hpicker, hdrawn, rfl⟩ := draw_cases hstep
      refine .picked _ rfl rfl (.inl ?_) ?_ fun name hname => ?_
      · rw [hpicker]
        rfl
      · rw [pending, pending, hpicker]
      · obtain rfl := List.mem_singleton.mp hname
        rw [hpicker]
        exact .inl (List.mem_of_getElem? hdrawn)
  | forge =>
      obtain ⟨temp, lotteryWinner, hpicker, rfl⟩ := forge_cases hstep
      exact .forged rfl ⟨temp, lotteryWinner, hpicker⟩ rfl
  | clear =>
      obtain ⟨hclearing, rfl⟩ := clear_cases hstep
      exact .cleared rfl hclearing rfl

theorem winningBlock_cases {block : Block} (h : server.winningBlock = some block) :
    block ∈ server.picker.temp ∧ block.validator ∈ server.picker.names := by
  unfold winningBlock at h
  split at h
  · rename_i temp lotteryWinner hpicker
    have hvalidator := List.find?_some h
    rw [decide_eq_true_eq] at hvalidator
    rw [hpicker]
    exact ⟨List.mem_of_find?_eq_some h, List.mem_singleton.mpr hvalidator⟩
  · cases h

/-- No block is in more places than there are in `sent`. -/
def Counted (sent : List Block) (server : Server) : Prop :=
  ∀ block, server.blockchain.tail.count block + server.pending.count block +
    server.collector.toList.count block ≤ sent.count block

theorem pending_congr (htemp : server'.tempBlocks = server.tempBlocks)
    (hpicker : server'.picker = server.picker) : server'.pending = server.pending := by
  rw [pending, pending, htemp, hpicker]

theorem temp_step {action : Action} (hstep : server.step sha256 action = some server')
    (h : server.picker.temp <+: server.tempBlocks) :
    server'.picker.temp <+: server'.tempBlocks := by
  cases ledgerStep hstep with
  | kept _ _ htemp _ hpicker => rwa [htemp, hpicker]
  | sent _ _ _ _ htemp _ hpicker => rwa [htemp, hpicker]
  | collected candidate _ _ hform =>
      rw [hform]
      exact h.trans (List.prefix_append _ _)
  | picked picker _ hform htemp =>
      rw [hform]
      rcases htemp with htemp | htemp | htemp
      · exact htemp ▸ h
      · exact htemp ▸ List.prefix_refl _
      · exact htemp ▸ List.nil_prefix
  | forged _ _ hform =>
      rw [hform]
      exact List.nil_prefix
  | cleared _ _ hform =>
      rw [hform]
      exact List.nil_prefix

theorem counted_step {action : Action} (hstep : server.step sha256 action = some server')
    (hrooted : Rooted server) (htemp : server.picker.temp <+: server.tempBlocks)
    {sent : List Block} (h : Counted sent server) :
    Counted (sent ++ (server.sentBlock action).toList) server' := by
  intro block
  have hold := h block
  rw [List.count_append]
  cases ledgerStep hstep with
  | kept hsent hchain htemp hcollector hpicker =>
      rw [hchain, pending_congr htemp hpicker, hcollector]
      omega
  | sent newBlock hsent hnone hchain htemp hcollector hpicker =>
      rw [hchain, pending_congr htemp hpicker, hcollector, hsent]
      omega
  | collected candidate hsent hsome hform =>
      have hpending : server'.pending.count block ≤
          server.pending.count block + [candidate].count block := by
        rw [← List.count_append, hform]
        cases hpicker : server.picker <;> simp [pending, hpicker]
      have hchain : server'.blockchain = server.blockchain := by rw [hform]
      have hcollector : server'.collector = none := by rw [hform]
      rw [hsome, Option.toList_some] at hold
      rw [hchain, hcollector, Option.toList_none, List.count_nil]
      omega
  | picked picker _ hform _ hpending =>
      have hchain : server'.blockchain = server.blockchain := by rw [hform]
      have hcollector : server'.collector = server.collector := by rw [hform]
      rw [hpending, hchain, hcollector]
      omega
  | forged _ hdrawn hform =>
      have hpending : server'.pending = [] := by rw [hform]; rfl
      have hcollector : server'.collector = server.collector := by rw [hform]
      have hchain : server'.blockchain.tail =
          server.blockchain.tail ++ server.winningBlock.toList := by
        rw [hform]
        refine List.tail_append_of_ne_nil ?_
        rintro hnil
        obtain ⟨tip, htip⟩ := hrooted.tip
        rw [hnil] at htip
        cases htip
      have hwinner : server.winningBlock.toList.count block ≤ server.pending.count block := by
        cases hwin : server.winningBlock with
        | none => exact Nat.zero_le _
        | some winner =>
            obtain ⟨temp, lotteryWinner, hpicker⟩ := hdrawn
            have hmem := htemp.subset (winningBlock_cases hwin).1
            have hpend : server.pending = server.tempBlocks := by rw [pending, hpicker]
            rw [hpend, Option.toList_some]
            exact (List.singleton_sublist.mpr hmem).count_le block
      rw [hchain, hpending, hcollector, List.count_append, List.count_nil]
      omega
  | cleared _ hclearing hform =>
      have hpending : server'.pending = [] := by rw [hform]; rfl
      have hchain : server'.blockchain = server.blockchain := by rw [hform]
      have hcollector : server'.collector = server.collector := by rw [hform]
      rw [hpending, hchain, hcollector, List.count_nil]
      omega

end Server

section Run

variable (run : Lib.Run (Server.start sha256 timestamp) (Server.step sha256))

/-- The blocks sent before step `k`, in their order. -/
def sent (k : Nat) : List Block :=
  (List.range k).flatMap fun j => ((run.state j).sentBlock (run.act j)).toList

/-- Some connection was given the address and has put down tokens. -/
def Staked (k : Nat) (address : String) : Prop :=
  run.Before k fun _ action => ∃ balance, action = .connect address (some balance) ∧ 0 < balance

/-- What is known of the chain after `k` steps. -/
structure Ledger (k : Nat) : Prop where
  grows : ∀ j, j ≤ k → (run.state j).blockchain <+: (run.state k).blockchain
  grown : Grown sha256 (run.state k).blockchain
  numbered : ∀ (p : Nat) (block : Block), (run.state k).blockchain[p]? = some block →
    0 ≤ block.index ∧ block.index ≤ p
  staked : ∀ block ∈ (run.state k).blockchain.tail, Staked run k block.validator
  once : ∀ block, (run.state k).blockchain.tail.count block ≤ (sent run k).count block

/-- The invariant behind it: where the names and the blocks come from. -/
structure Accounted (k : Nat) : Prop where
  validators : ∀ address balance, (run.state k).validators.get address = some balance →
    run.Before k fun _ action => action = .connect address (some balance)
  names : ∀ name ∈ (run.state k).picker.names, Staked run k name
  temp : (run.state k).picker.temp <+: (run.state k).tempBlocks
  counted : Counted (sent run k) (run.state k)
  staked : ∀ block ∈ (run.state k).blockchain.tail, Staked run k block.validator
  grown : Grown sha256 (run.state k).blockchain

theorem accounted_start : Accounted run 0 := by
  constructor
  · intro address balance hbalance
    rw [run.starts] at hbalance
    cases hbalance
  · rw [run.starts]
    exact List.forall_mem_nil _
  · rw [run.starts]
    exact List.nil_prefix
  · rw [run.starts]
    exact fun block => Nat.zero_le _
  · rw [run.starts]
    exact List.forall_mem_nil _
  · rw [run.starts]
    intro p block hblock hp
    obtain ⟨hlt, _⟩ := List.getElem?_eq_some_iff.mp hblock
    exact absurd hlt (Nat.not_lt_of_le hp)

variable {run}

theorem Accounted.registered {k : Nat} (h : Accounted run k) {name : String}
    (hname : ∃ balance, (run.state k).validators.get name = some balance ∧ 0 < balance) :
    Staked run k name := by
  obtain ⟨balance, hbalance, hpos⟩ := hname
  obtain ⟨j, hj, hlength, hact⟩ := h.validators name balance hbalance
  exact ⟨j, hj, hlength, balance, hact, hpos⟩

theorem Accounted.names_step {k : Nat} (hk : k < run.length) (h : Accounted run k) :
    ∀ name ∈ (run.state (k + 1)).picker.names, Staked run k name := by
  intro name hname
  cases ledgerStep (run.steps k hk) with
  | kept _ _ _ _ hpicker => exact h.names name (hpicker ▸ hname)
  | sent _ _ _ _ _ _ hpicker => exact h.names name (hpicker ▸ hname)
  | collected _ _ _ hform =>
      rw [hform] at hname
      exact h.names name hname
  | picked picker _ hform _ _ hnames =>
      rw [hform] at hname
      rcases hnames name hname with hold | hregistered
      · exact h.names name hold
      · exact h.registered hregistered
  | forged _ _ hform =>
      rw [hform] at hname
      cases hname
  | cleared _ _ hform =>
      rw [hform] at hname
      cases hname

theorem Accounted.step {k : Nat} (hk : k < run.length) (hrooted : Rooted (run.state k))
    (hflight : InFlight sha256 (run.state k)) (h : Accounted run k) : Accounted run (k + 1) := by
  have hstep := run.steps k hk
  have hsent : sent run (k + 1) =
      sent run k ++ ((run.state k).sentBlock (run.act k)).toList := by
    rw [sent, List.range_succ, List.flatMap_append, List.flatMap_singleton]
    rfl
  have hlater : ∀ {name : String}, Staked run k name → Staked run (k + 1) name :=
    fun hname => hname.mono (Nat.le_succ k)
  have hchain : (run.state (k + 1)).blockchain = (run.state k).blockchain ∨
      ∃ block, (run.state k).winningBlock = some block ∧
        (run.state (k + 1)).blockchain = (run.state k).blockchain ++ [block] := by
    by_cases hforge : run.act k = .forge
    · rw [hforge] at hstep
      have happended := blockchain_forge hstep
      cases hwin : (run.state k).winningBlock with
      | none => exact .inl (by rw [happended, hwin, Option.toList_none, List.append_nil])
      | some block => exact .inr ⟨block, rfl, by rw [happended, hwin, Option.toList_some]⟩
    · exact .inl (blockchain_step hstep hforge)
  refine ⟨fun address balance hbalance => ?_, fun name hname => hlater (h.names_step hk name hname),
    temp_step hstep h.temp, ?_, ?_, ?_⟩
  · rcases validators_step hstep hbalance with hold | hnew
    · exact (h.validators address balance hold).mono (Nat.le_succ k)
    · exact .now hk hnew
  · rw [hsent]
    exact counted_step hstep hrooted h.temp h.counted
  · intro block hblock
    rcases hchain with hsame | ⟨winner, hwin, happended⟩
    · rw [hsame] at hblock
      exact hlater (h.staked block hblock)
    · obtain ⟨tip, htip⟩ := hrooted.tip
      rw [happended, List.tail_append_of_ne_nil (fun hnil => by rw [hnil] at htip; cases htip)]
        at hblock
      rcases List.mem_append.mp hblock with hold | hnew
      · exact hlater (h.staked block hold)
      · obtain rfl := List.mem_singleton.mp hnew
        exact hlater (h.names _ (winningBlock_cases hwin).2)
  · rcases hchain with hsame | ⟨winner, hwin, happended⟩
    · rw [hsame]
      exact h.grown
    · rw [happended]
      exact h.grown.append (hflight.winningBlock hwin)

variable (run)

/-- In every run the chain is a tree that only grows. Each block but the genesis block comes
from an address that has put down tokens before, and is there no more often than it was
sent. -/
theorem ledger_run : Ledger run run.length := by
  have hflight := run.invariant (Server.inFlight_start timestamp)
    fun _ _ _ h hstep => h.step hstep
  have hrooted := run.invariant (Server.rooted_start timestamp)
    fun _ _ _ h hstep => h.step hstep
  have haccounted : ∀ k, k ≤ run.length → Accounted run k :=
    run.induct (accounted_start run) fun k hk ih =>
      ih.step hk (hrooted k hk.le) (hflight k hk.le)
  have hall := haccounted run.length (Nat.le_refl _)
  refine ⟨fun j hj => ?_, hall.grown, fun p block hblock => ?_, hall.staked, fun block => ?_⟩
  · refine run.induct_from (P := fun k => (run.state j).blockchain <+: (run.state k).blockchain)
      (List.prefix_refl _) ?_ run.length hj (Nat.le_refl _)
    intro m _ hm ih
    by_cases hforge : run.act m = .forge
    · have hstep := run.steps m hm
      rw [hforge] at hstep
      rw [blockchain_forge hstep]
      exact ih.trans (List.prefix_append _ _)
    · rw [blockchain_step (run.steps m hm) hforge]
      exact ih
  · exact hall.grown.index_le (hrooted run.length (Nat.le_refl _)).genesis hblock
  · have hcount := hall.counted block
    omega

end Run

end BlockchainTutorial.ProofOfStake
