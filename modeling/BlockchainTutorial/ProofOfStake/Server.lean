import BlockchainTutorial.Lib.Mapping
import BlockchainTutorial.Lib.Run

namespace BlockchainTutorial.ProofOfStake

/-! `proof-of-stake/main.go`. The announcements to the connections are left out. -/

structure Block where
  index : Int
  timestamp : String
  bpm : Int
  hash : String
  prevHash : String
  validator : String
  deriving DecidableEq, Repr, Inhabited

def hexDigit (n : Nat) : Char :=
  "0123456789abcdef".toList.getD n '0'

def encodeToString (bytes : List UInt8) : String :=
  String.ofList (bytes.flatMap fun b => [hexDigit (b.toNat / 16), hexDigit (b.toNat % 16)])

/-- The text that an integer is converted to: the character of that number. -/
def runeText (n : Int) : String :=
  if 0 ≤ n ∧ n.toNat.isValidChar then String.singleton (Char.ofNat n.toNat)
  else String.singleton (Char.ofNat 0xFFFD)

section Blocks

variable (sha256 : String → List UInt8)

def calculateHash (s : String) : String :=
  encodeToString (sha256 s)

def calculateBlockHash (block : Block) : String :=
  calculateHash sha256
    (runeText block.index ++ block.timestamp ++ runeText block.bpm ++ block.prevHash)

def generateBlock (oldBlock : Block) (timestamp : String) (bpm : Int) (address : String) :
    Block :=
  let newBlock : Block :=
    ⟨oldBlock.index + 1, timestamp, bpm, "", oldBlock.hash, ""⟩
  { newBlock with hash := calculateBlockHash sha256 newBlock, validator := address }

def isBlockValid (newBlock oldBlock : Block) : Bool :=
  if oldBlock.index + 1 ≠ newBlock.index then false
  else if oldBlock.hash ≠ newBlock.prevHash then false
  else if calculateBlockHash sha256 newBlock ≠ newBlock.hash then false
  else true

def genesisBlock (timestamp : String) : Block :=
  ⟨0, timestamp, 0, calculateBlockHash sha256 ⟨0, "", 0, "", "", ""⟩, "", ""⟩

variable {sha256}

theorem isBlockValid_iff {newBlock oldBlock : Block} :
    isBlockValid sha256 newBlock oldBlock = true ↔
      oldBlock.index + 1 = newBlock.index ∧ oldBlock.hash = newBlock.prevHash ∧
        calculateBlockHash sha256 newBlock = newBlock.hash := by
  unfold isBlockValid
  split
  · rename_i hindex
    exact ⟨nofun, fun h => absurd h.1 hindex⟩
  · split
    · rename_i hhash
      exact ⟨nofun, fun h => absurd h.2.1 hhash⟩
    · split
      · rename_i hown
        exact ⟨nofun, fun h => absurd h.2.2 hown⟩
      · rename_i hindex hhash hown
        exact ⟨fun _ => ⟨not_not.mp hindex, not_not.mp hhash, not_not.mp hown⟩, fun _ => rfl⟩

@[simp] theorem generateBlock_validator (oldBlock : Block) (timestamp : String) (bpm : Int)
    (address : String) :
    (generateBlock sha256 oldBlock timestamp bpm address).validator = address := rfl

theorem generateBlock_valid (oldBlock : Block) (timestamp : String) (bpm : Int)
    (address : String) :
    isBlockValid sha256 (generateBlock sha256 oldBlock timestamp bpm address) oldBlock = true :=
  isBlockValid_iff.mpr ⟨rfl, rfl, rfl⟩

end Blocks

/-! The goroutines. A step is what one of them does up to its next lock or channel. -/

/-- Where the reader of a connection is. -/
inductive Stage where
  | waiting
  | generating (oldLastIndex : Block)
  | sending (newBlock : Block)

structure Handler where
  address : String
  stage : Stage

/-- Where `pickWinner` is. -/
inductive Picker where
  | sleeping
  | filling (temp rest : List Block) (lotteryPool : List String)
  | drawn (temp : List Block) (lotteryWinner : String)
  | clearing

/-- `collector` is the candidate that the collecting goroutine has received. -/
structure Server where
  blockchain : List Block
  tempBlocks : List Block
  validators : Lib.Mapping String (Option Int)
  handlers : List Handler
  collector : Option Block
  picker : Picker

inductive Action where
  | connect (address : String) (balance : Option Int)
  | remove (handler : Nat)
  | read (handler : Nat)
  | generate (handler : Nat) (timestamp : String) (bpm : Int)
  | send (handler : Nat)
  | collect
  | snapshot
  | fill
  | draw (r : Nat)
  | forge
  | clear
  deriving DecidableEq, Inhabited

namespace Server

def setStage (server : Server) (i : Nat) (handler : Handler) (stage : Stage) : Server :=
  { server with handlers := server.handlers.set i { handler with stage } }

/-- Without a balance the validator stays unknown, and the connection is served all the
same. -/
def connect (server : Server) (address : String) (balance : Option Int) : Server :=
  { server with
    validators := match balance with
      | some k => server.validators.set address (some k)
      | none => server.validators
    handlers := server.handlers ++ [⟨address, .waiting⟩] }

/-- After a number that cannot be read. -/
def remove (server : Server) (i : Nat) : Option Server :=
  match server.handlers[i]? with
  | some handler => some { server with
      validators := server.validators.set handler.address none }
  | none => none

def read (server : Server) (i : Nat) : Option Server :=
  match server.handlers[i]?, server.blockchain.getLast? with
  | some ⟨address, .waiting⟩, some oldLastIndex =>
      some (server.setStage i ⟨address, .waiting⟩ (.generating oldLastIndex))
  | _, _ => none

def generate (sha256 : String → List UInt8) (server : Server) (i : Nat) (timestamp : String)
    (bpm : Int) : Option Server :=
  match server.handlers[i]? with
  | some ⟨address, .generating oldLastIndex⟩ =>
      let newBlock := generateBlock sha256 oldLastIndex timestamp bpm address
      some (server.setStage i ⟨address, .waiting⟩
        (if isBlockValid sha256 newBlock oldLastIndex then .sending newBlock else .waiting))
  | _ => none

/-- The channel has no buffer: the collector receives what is sent. -/
def send (server : Server) (i : Nat) : Option Server :=
  match server.handlers[i]?, server.collector with
  | some ⟨address, .sending newBlock⟩, none =>
      some { server.setStage i ⟨address, .waiting⟩ .waiting with collector := some newBlock }
  | _, _ => none

def collect (server : Server) : Option Server :=
  match server.collector with
  | some candidate => some { server with
      tempBlocks := server.tempBlocks ++ [candidate]
      collector := none }
  | none => none

def snapshot (server : Server) : Option Server :=
  match server.picker with
  | .sleeping => some { server with
      picker := if server.tempBlocks = [] then .clearing
        else .filling server.tempBlocks server.tempBlocks [] }
  | _ => none

/-- The tickets of the next block's validator, unless the pool has them. -/
def tickets (validators : Lib.Mapping String (Option Int)) (lotteryPool : List String)
    (validator : String) : List String :=
  if validator ∈ lotteryPool then lotteryPool
  else match validators.get validator with
    | some k => lotteryPool ++ List.replicate k.toNat validator
    | none => lotteryPool

def fill (server : Server) : Option Server :=
  match server.picker with
  | .filling temp (block :: rest) lotteryPool => some { server with
      picker := .filling temp rest (tickets server.validators lotteryPool block.validator) }
  | _ => none

/-- The draw from an empty pool ends the program. -/
def draw (server : Server) (r : Nat) : Option Server :=
  match server.picker with
  | .filling temp [] lotteryPool =>
      match lotteryPool[r]? with
      | some lotteryWinner => some { server with picker := .drawn temp lotteryWinner }
      | none => none
  | _ => none

/-- The block that `pickWinner` is about to append. -/
def winningBlock (server : Server) : Option Block :=
  match server.picker with
  | .drawn temp lotteryWinner => temp.find? fun block => block.validator = lotteryWinner
  | _ => none

def forge (server : Server) : Option Server :=
  match server.picker with
  | .drawn _ _ => some { server with
      blockchain := server.blockchain ++ server.winningBlock.toList
      picker := .clearing }
  | _ => none

def clear (server : Server) : Option Server :=
  match server.picker with
  | .clearing => some { server with
      tempBlocks := []
      picker := .sleeping }
  | _ => none

def step (sha256 : String → List UInt8) (server : Server) : Action → Option Server
  | .connect address balance => some (server.connect address balance)
  | .remove i => server.remove i
  | .read i => server.read i
  | .generate i timestamp bpm => server.generate sha256 i timestamp bpm
  | .send i => server.send i
  | .collect => server.collect
  | .snapshot => server.snapshot
  | .fill => server.fill
  | .draw r => server.draw r
  | .forge => server.forge
  | .clear => server.clear

def start (sha256 : String → List UInt8) (timestamp : String) : Server where
  blockchain := [genesisBlock sha256 timestamp]
  tempBlocks := []
  validators := ∅
  handlers := []
  collector := none
  picker := .sleeping

/-! What a step that is taken does. -/

variable {server server' : Server}

theorem remove_cases {i : Nat} (h : server.remove i = some server') :
    ∃ handler, server.handlers[i]? = some handler ∧
      server' = { server with validators := server.validators.set handler.address none } := by
  unfold remove at h
  split at h
  · rename_i handler hhandler
    cases h
    exact ⟨handler, hhandler, rfl⟩
  · cases h

theorem read_cases {i : Nat} (h : server.read i = some server') :
    ∃ address oldLastIndex, server.handlers[i]? = some ⟨address, .waiting⟩ ∧
      server.blockchain.getLast? = some oldLastIndex ∧
      server' = server.setStage i ⟨address, .waiting⟩ (.generating oldLastIndex) := by
  unfold read at h
  split at h
  · rename_i address oldLastIndex hhandler htip
    cases h
    exact ⟨address, oldLastIndex, hhandler, htip, rfl⟩
  · cases h

/-- The block that is generated passes the check. -/
theorem generate_cases {sha256 : String → List UInt8} {i : Nat} {timestamp : String}
    {bpm : Int} (h : server.generate sha256 i timestamp bpm = some server') :
    ∃ address oldLastIndex, server.handlers[i]? = some ⟨address, .generating oldLastIndex⟩ ∧
      server' = server.setStage i ⟨address, .waiting⟩
        (.sending (generateBlock sha256 oldLastIndex timestamp bpm address)) := by
  unfold generate at h
  split at h
  · rename_i address oldLastIndex hhandler
    cases h
    refine ⟨address, oldLastIndex, hhandler, ?_⟩
    rw [if_pos (generateBlock_valid oldLastIndex timestamp bpm address)]
  · cases h

theorem send_cases {i : Nat} (h : server.send i = some server') :
    ∃ address newBlock, server.handlers[i]? = some ⟨address, .sending newBlock⟩ ∧
      server.collector = none ∧
      server' = { server.setStage i ⟨address, .waiting⟩ .waiting with
        collector := some newBlock } := by
  unfold send at h
  split at h
  · rename_i address newBlock hhandler hcollector
    cases h
    exact ⟨address, newBlock, hhandler, hcollector, rfl⟩
  · cases h

theorem collect_cases (h : server.collect = some server') :
    ∃ candidate, server.collector = some candidate ∧
      server' = { server with
        tempBlocks := server.tempBlocks ++ [candidate]
        collector := none } := by
  unfold collect at h
  split at h
  · rename_i candidate hcollector
    cases h
    exact ⟨candidate, hcollector, rfl⟩
  · cases h

theorem snapshot_cases (h : server.snapshot = some server') :
    server.picker = .sleeping ∧
      (server.tempBlocks = [] ∧ server' = { server with picker := .clearing } ∨
        server.tempBlocks ≠ [] ∧ server' = { server with
          picker := .filling server.tempBlocks server.tempBlocks [] }) := by
  unfold snapshot at h
  split at h
  · rename_i hpicker
    cases h
    refine ⟨hpicker, ?_⟩
    by_cases hempty : server.tempBlocks = []
    · rw [if_pos hempty]
      exact .inl ⟨hempty, rfl⟩
    · rw [if_neg hempty]
      exact .inr ⟨hempty, rfl⟩
  · cases h

theorem fill_cases (h : server.fill = some server') :
    ∃ temp block rest lotteryPool,
      server.picker = .filling temp (block :: rest) lotteryPool ∧
      server' = { server with
        picker := .filling temp rest
          (tickets server.validators lotteryPool block.validator) } := by
  unfold fill at h
  split at h
  · rename_i temp block rest lotteryPool hpicker
    cases h
    exact ⟨temp, block, rest, lotteryPool, hpicker, rfl⟩
  · cases h

theorem draw_cases {r : Nat} (h : server.draw r = some server') :
    ∃ temp lotteryPool lotteryWinner, server.picker = .filling temp [] lotteryPool ∧
      lotteryPool[r]? = some lotteryWinner ∧
      server' = { server with picker := .drawn temp lotteryWinner } := by
  unfold draw at h
  split at h
  · rename_i temp lotteryPool hpicker
    split at h
    · rename_i lotteryWinner hdrawn
      cases h
      exact ⟨temp, lotteryPool, lotteryWinner, hpicker, hdrawn, rfl⟩
    · cases h
  · cases h

theorem forge_cases (h : server.forge = some server') :
    ∃ temp lotteryWinner, server.picker = .drawn temp lotteryWinner ∧
      server' = { server with
        blockchain := server.blockchain ++ server.winningBlock.toList
        picker := .clearing } := by
  unfold forge at h
  split at h
  · rename_i temp lotteryWinner hpicker
    cases h
    exact ⟨temp, lotteryWinner, hpicker, rfl⟩
  · cases h

theorem clear_cases (h : server.clear = some server') :
    server.picker = .clearing ∧
      server' = { server with
        tempBlocks := []
        picker := .sleeping } := by
  unfold clear at h
  split at h
  · rename_i hpicker
    cases h
    exact ⟨hpicker, rfl⟩
  · cases h

end Server

end BlockchainTutorial.ProofOfStake
