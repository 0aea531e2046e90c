import BlockchainTutorial.Lib.Pool
import BlockchainTutorial.ProofOfStake.Server

namespace BlockchainTutorial.ProofOfStake

/-! One call of `pickWinner`, while the validators stay as they are. -/

/-- Where the numbers come from: one below each bound that there are numbers below. -/
abbrev Source := (n : Nat) → 0 < n → Fin n

/-- `none` is the end of the program: there is no number below zero. -/
def intn (r : Source) (n : Nat) : Option (Fin n) :=
  if h : 0 < n then some (r n h) else none

def fillPool (validators : Lib.Mapping String (Option Int)) (temp : List Block) :
    List String :=
  temp.foldl (fun lotteryPool block => Server.tickets validators lotteryPool block.validator) []

def drawWinner (r : Source) (lotteryPool : List String) : Option String :=
  (intn r lotteryPool.length).map lotteryPool.get

/-- `none` is the end of the program. The guard is on the blocks, the draw on the pool. -/
def pickWinner (r : Source) (validators : Lib.Mapping String (Option Int))
    (temp blockchain : List Block) : Option (List Block) :=
  if 0 < temp.length then
    match drawWinner r (fillPool validators temp) with
    | some lotteryWinner =>
        match temp.find? fun block => block.validator = lotteryWinner with
        | some block => some (blockchain ++ [block])
        | none => some blockchain
    | none => none
  else some blockchain

section Pool

variable {validators : Lib.Mapping String (Option Int)}

/-- How many tickets the validator's tokens buy. -/
def stake (validators : Lib.Mapping String (Option Int)) (validator : String) : Nat :=
  ((validators.get validator).getD 0).toNat

theorem stake_pos_iff {validator : String} :
    0 < stake validators validator ↔
      ∃ k, validators.get validator = some k ∧ 0 < k := by
  unfold stake
  cases hget : validators.get validator with
  | none => exact ⟨nofun, nofun⟩
  | some k =>
      constructor
      · intro h
        exact ⟨k, rfl, Int.pos_iff_toNat_pos.mpr h⟩
      · rintro ⟨k', heq, hk⟩
        cases heq
        exact Int.pos_iff_toNat_pos.mp hk

theorem tickets_eq (lotteryPool : List String) (validator : String) :
    Server.tickets validators lotteryPool validator =
      Lib.Pool.enter (stake validators) lotteryPool validator := by
  unfold Server.tickets Lib.Pool.enter stake
  split
  · rfl
  · cases validators.get validator with
    | none => exact (List.append_nil lotteryPool).symm
    | some k => rfl

/-- The loop deduplicates by searching the pool that it fills. -/
theorem fillPool_eq (temp : List Block) :
    fillPool validators temp =
      Lib.Pool.fill (stake validators) (temp.map Block.validator) := by
  rw [fillPool, Lib.Pool.fill, List.foldl_map]
  simp only [tickets_eq]

theorem count_fillPool {temp : List Block} {block : Block} (h : block ∈ temp) :
    (fillPool validators temp).count block.validator =
      stake validators block.validator := by
  rw [fillPool_eq, Lib.Pool.count_fill, if_pos (List.mem_map_of_mem h)]

theorem mem_fillPool {temp : List Block} {name : String} :
    name ∈ fillPool validators temp ↔
      ∃ block ∈ temp, block.validator = name ∧
        ∃ k, validators.get name = some k ∧ 0 < k := by
  rw [fillPool_eq, Lib.Pool.mem_fill, stake_pos_iff]
  constructor
  · rintro ⟨hname, hstake⟩
    obtain ⟨block, hmem, rfl⟩ := List.mem_map.mp hname
    exact ⟨block, hmem, rfl, hstake⟩
  · rintro ⟨block, hmem, rfl, hstake⟩
    exact ⟨List.mem_map_of_mem hmem, hstake⟩

end Pool

section Draw

variable {r : Source}

theorem drawWinner_eq_none_iff {lotteryPool : List String} :
    drawWinner r lotteryPool = none ↔ lotteryPool = [] := by
  unfold drawWinner intn
  by_cases h : 0 < lotteryPool.length
  · rw [dif_pos h]
    exact ⟨nofun, fun hempty => absurd hempty (List.ne_nil_of_length_pos h)⟩
  · rw [dif_neg h]
    exact iff_of_true rfl (List.eq_nil_of_length_eq_zero (by omega))

theorem drawWinner_mem {lotteryPool : List String} {lotteryWinner : String}
    (h : drawWinner r lotteryPool = some lotteryWinner) : lotteryWinner ∈ lotteryPool := by
  obtain ⟨i, _, rfl⟩ := Option.map_eq_some_iff.mp h
  exact List.get_mem lotteryPool i

end Draw

section Winner

variable {r : Source} {validators : Lib.Mapping String (Option Int)}
  {temp blockchain : List Block}

variable (r validators temp blockchain) in
/-- What `pickWinner` makes of the blocks: a member of the pool has proposed one of them. -/
theorem pickWinner_cases :
    temp = [] ∧ pickWinner r validators temp blockchain = some blockchain ∨
    temp ≠ [] ∧ drawWinner r (fillPool validators temp) = none ∧
      pickWinner r validators temp blockchain = none ∨
    ∃ lotteryWinner block, drawWinner r (fillPool validators temp) = some lotteryWinner ∧
      temp.find? (fun block => block.validator = lotteryWinner) = some block ∧
      pickWinner r validators temp blockchain = some (blockchain ++ [block]) := by
  by_cases htemp : temp = []
  · subst htemp
    exact .inl ⟨rfl, rfl⟩
  · have hlength : 0 < temp.length := List.length_pos_iff.mpr htemp
    rw [pickWinner, if_pos hlength]
    cases hdraw : drawWinner r (fillPool validators temp) with
    | none => exact .inr (.inl ⟨htemp, rfl, rfl⟩)
    | some lotteryWinner =>
        cases hfind : temp.find? fun block => block.validator = lotteryWinner with
        | none =>
            exfalso
            obtain ⟨block, hmem, hname, _⟩ := mem_fillPool.mp (drawWinner_mem hdraw)
            exact List.find?_eq_none.mp hfind block hmem (by simpa using hname)
        | some block =>
            refine .inr (.inr ⟨lotteryWinner, block, rfl, hfind, ?_⟩)
            simp only [hfind]

theorem pickWinner_isSome_iff :
    (pickWinner r validators temp blockchain).isSome ↔
      temp = [] ∨ fillPool validators temp ≠ [] := by
  obtain ⟨htemp, hpick⟩ | ⟨htemp, hdraw, hpick⟩ |
    ⟨lotteryWinner, block, hdraw, _, hpick⟩ := pickWinner_cases r validators temp blockchain
  · rw [hpick]
    exact iff_of_true rfl (.inl htemp)
  · rw [hpick]
    refine iff_of_false Bool.false_ne_true ?_
    rintro (hempty | hpool)
    · exact htemp hempty
    · exact hpool (drawWinner_eq_none_iff.mp hdraw)
  · rw [hpick]
    exact iff_of_true rfl (.inr (List.ne_nil_of_mem (drawWinner_mem hdraw)))

theorem fillPool_ne_nil_iff :
    fillPool validators temp ≠ [] ↔
      ∃ block ∈ temp, ∃ k, validators.get block.validator = some k ∧ 0 < k := by
  rw [fillPool_eq, Lib.Pool.fill_ne_nil_iff]
  simp only [List.mem_map, exists_exists_and_eq_and, stake_pos_iff]

/-- The lottery over the proposed blocks: what is in the pool, that there is a draw, and whose
block is appended. -/
structure FairLottery (validators : Lib.Mapping String (Option Int)) (temp : List Block) :
    Prop where
  weighted : ∀ block ∈ temp, ∀ k, validators.get block.validator = some k → 0 < k →
    ((fillPool validators temp).count block.validator : Int) = k
  nobodyElse : ∀ name ∈ fillPool validators temp, ∃ block ∈ temp, block.validator = name ∧
    ∃ k, validators.get name = some k ∧ 0 < k
  drawn : ∀ r blockchain, (pickWinner r validators temp blockchain).isSome
  forged : ∀ r blockchain blockchain',
    pickWinner r validators temp blockchain = some blockchain' → blockchain' ≠ blockchain →
      ∃ lotteryWinner before block after,
        drawWinner r (fillPool validators temp) = some lotteryWinner ∧
        temp = before ++ block :: after ∧ block.validator = lotteryWinner ∧
        (∀ earlier ∈ before, earlier.validator ≠ lotteryWinner) ∧
        blockchain' = blockchain ++ [block]

/-- The draw alone can go wrong, when nobody who proposes has tokens. -/
theorem fairLottery_iff (validators : Lib.Mapping String (Option Int)) (temp : List Block) :
    FairLottery validators temp ↔
      temp = [] ∨
        ∃ block ∈ temp, ∃ k, validators.get block.validator = some k ∧ 0 < k := by
  rw [← fillPool_ne_nil_iff]
  constructor
  · intro h
    exact pickWinner_isSome_iff.mp (h.drawn (fun n hn => ⟨0, hn⟩) [])
  · intro h
    refine ⟨?_, ?_, ?_, ?_⟩
    · intro block hmem k hk hpos
      rw [count_fillPool hmem, stake, hk]
      exact Int.toNat_of_nonneg (Int.le_of_lt hpos)
    · intro name hname
      exact mem_fillPool.mp hname
    · intro r blockchain
      exact pickWinner_isSome_iff.mpr h
    · intro r blockchain blockchain' hpick hne
      obtain ⟨_, hsame⟩ | ⟨_, _, hnone⟩ | ⟨lotteryWinner, block, hdraw, hfind,
        happend⟩ := pickWinner_cases r validators temp blockchain
      · rw [hpick] at hsame
        exact absurd (Option.some.inj hsame) hne
      · rw [hpick] at hnone
        cases hnone
      · obtain ⟨hwinner, before, after, hsplit, hbefore⟩ :=
          List.find?_eq_some_iff_append.mp hfind
        refine ⟨lotteryWinner, before, block, after, hdraw, hsplit, by simpa using hwinner,
          ?_, Option.some.inj (hpick.symm.trans happend)⟩
        intro earlier hmem
        simpa using hbefore earlier hmem

/-- Ann has connected with a balance of 0, and hers is the only block. -/
theorem empty_pool_drawn :
    ¬ FairLottery ((∅ : Lib.Mapping String (Option Int)).set "Ann" (some 0))
      [⟨1, "noon", 70, "", "", "Ann"⟩] := by
  intro h
  obtain hempty | hpool :=
    pickWinner_isSome_iff.mp (h.drawn (fun n hn => ⟨0, hn⟩) [])
  · cases hempty
  · obtain ⟨block, hmem, k, hk, hpos⟩ := fillPool_ne_nil_iff.mp hpool
    obtain rfl := List.mem_singleton.mp hmem
    rw [Lib.Mapping.get_set_self] at hk
    cases hk
    exact absurd hpos (by decide)

end Winner

/-! The same call as steps of the server. -/

namespace Server

variable {sha256 : String → List UInt8}

theorem exec_fill (server : Server) (temp rest : List Block) (lotteryPool : List String)
    (h : server.picker = .filling temp rest lotteryPool) :
    Lib.exec (step sha256) server (List.replicate rest.length .fill) =
      some { server with
        picker := .filling temp []
          (rest.foldl (fun pool block => tickets server.validators pool block.validator)
            lotteryPool) } := by
  induction rest generalizing server lotteryPool with
  | nil =>
      rw [List.foldl_nil, ← h]
      rfl
  | cons block rest ih =>
      have hfill : server.fill = some { server with
          picker := .filling temp rest
            (tickets server.validators lotteryPool block.validator) } := by
        rw [fill, h]
      rw [List.length_cons, List.replicate_succ, Lib.exec, step, hfill, Option.bind_some,
        List.foldl_cons]
      exact ih _ _ rfl

/-- Up to the draw. -/
theorem exec_snapshot_fill {server : Server} (hsleeping : server.picker = .sleeping)
    (hproposed : server.tempBlocks ≠ []) :
    Lib.exec (step sha256) server
        (.snapshot :: List.replicate server.tempBlocks.length .fill) =
      some { server with
        picker := .filling server.tempBlocks []
          (fillPool server.validators server.tempBlocks) } := by
  have hsnapshot : server.snapshot = some { server with
      picker := .filling server.tempBlocks server.tempBlocks [] } := by
    rw [snapshot, hsleeping, if_neg hproposed]
  rw [Lib.exec, step, hsnapshot, Option.bind_some]
  exact exec_fill _ server.tempBlocks server.tempBlocks [] rfl

/-- Without other steps in between, the steps of the picker do what `pickWinner` does. -/
theorem exec_pickWinner {r : Source} {server : Server} {blockchain : List Block}
    (hsleeping : server.picker = .sleeping) (hproposed : server.tempBlocks ≠ [])
    (hpick : pickWinner r server.validators server.tempBlocks server.blockchain =
      some blockchain) :
    ∃ i, Lib.exec (step sha256) server
        (.snapshot :: List.replicate server.tempBlocks.length .fill ++
          [.draw i, .forge, .clear]) =
      some { server with blockchain, tempBlocks := [] } := by
  obtain ⟨htemp, _⟩ | ⟨_, _, hnone⟩ | ⟨lotteryWinner, block, hdraw, hfind, happend⟩ :=
    pickWinner_cases r server.validators server.tempBlocks server.blockchain
  · exact absurd htemp hproposed
  · rw [hpick] at hnone
    cases hnone
  · obtain rfl : blockchain = server.blockchain ++ [block] :=
      Option.some.inj (hpick.symm.trans happend)
    obtain ⟨i, _, hi⟩ := Option.map_eq_some_iff.mp hdraw
    have hwinner : (fillPool server.validators server.tempBlocks)[i.val]? =
        some lotteryWinner := by
      rw [← hi]
      exact List.getElem?_eq_getElem i.isLt
    refine ⟨i, ?_⟩
    rw [Lib.exec_append, exec_snapshot_fill hsleeping hproposed, Option.bind_some]
    simp only [Lib.exec, step, draw, hwinner, forge, winningBlock, hfind, clear,
      Option.bind_some, Option.toList_some, hsleeping]

/-- Where `pickWinner` ends the program, no draw is possible. -/
theorem exec_draw_none {r : Source} {server : Server} (hsleeping : server.picker = .sleeping)
    (hpick : pickWinner r server.validators server.tempBlocks server.blockchain = none)
    (i : Nat) :
    Lib.exec (step sha256) server
        (.snapshot :: List.replicate server.tempBlocks.length .fill ++ [.draw i]) = none := by
  obtain ⟨_, hsome⟩ | ⟨hproposed, hdraw, _⟩ | ⟨_, _, _, _, happend⟩ :=
    pickWinner_cases r server.validators server.tempBlocks server.blockchain
  · rw [hpick] at hsome
    cases hsome
  · rw [Lib.exec_append, exec_snapshot_fill hsleeping hproposed, Option.bind_some,
      drawWinner_eq_none_iff.mp hdraw]
    rfl
  · rw [hpick] at happend
    cases happend

end Server

end BlockchainTutorial.ProofOfStake
