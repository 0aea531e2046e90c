import BlockchainTutorial.Auction.Escrow

namespace BlockchainTutorial.Auction

/-! `Voting.sol`. The additions and subtractions of the contract are a parameter, so
that a call can be compared with the same call under checked arithmetic. -/

structure Arithmetic where
  add : Uint → Uint → Except String Uint
  sub : Uint → Uint → Except String Uint

namespace Arithmetic

/-- That of the contract. -/
def wrapping : Arithmetic where
  add a b := .ok (a + b)
  sub a b := .ok (a - b)

/-- That in which a call ends with the first operation that wraps. -/
def checked : Arithmetic where
  add a b := if a.toNat + b.toNat < 2 ^ 256 then .ok (a + b) else .error "addition wraps"
  sub a b := if b ≤ a then .ok (a - b) else .error "subtraction wraps"

end Arithmetic

structure Voter where
  voterAddress : Address
  tokenNum : Uint
  tokensVoteForCandidates : List Uint
  deriving DecidableEq

instance : Inhabited Voter := ⟨⟨0, 0, []⟩⟩

/-- The length of an array is a word. -/
abbrev CandidateList := { names : List Bytes32 // names.length < 2 ^ 256 }

/-- `balance` is the ether of the contract. -/
structure Voting where
  totalTokens : Uint
  tokenBalance : Uint
  tokenPrice : Uint
  candidateList : CandidateList
  votesReceived : Lib.Mapping Bytes32 Uint
  voterInfo : Lib.Mapping Address Voter
  balance : Nat

/-- `accepts` tells whether the receiver of a transfer takes it. -/
structure Message where
  sender : Address
  value : Uint
  accepts : Bool
  deriving Inhabited

inductive Vote where
  | buy
  | voteForCandidate (candidate : Bytes32) (voteTokens : Uint)
  | transfer (receiver : Address)
  deriving Inhabited

namespace Voting

def create (totalSupply price : Uint) (candidateNames : CandidateList) : Voting where
  totalTokens := totalSupply
  tokenBalance := totalSupply
  tokenPrice := price
  candidateList := candidateNames
  votesReceived := ∅
  voterInfo := ∅
  balance := 0

section Functions

variable (arith : Arithmetic)

/-- A division by zero ends the call. -/
def buy (voting : Voting) (msg : Message) : Except String Voting := do
  require (voting.tokenPrice ≠ 0) ""
  let tokensToBuy := msg.value / voting.tokenPrice
  require (tokensToBuy ≤ voting.tokenBalance) ""
  let voter := voting.voterInfo.get msg.sender
  let tokenNum ← arith.add voter.tokenNum tokensToBuy
  let tokenBalance ← arith.sub voting.tokenBalance tokensToBuy
  .ok { voting with
    voterInfo := voting.voterInfo.set msg.sender
      { voter with voterAddress := msg.sender, tokenNum }
    tokenBalance
    balance := voting.balance + msg.value.toNat }

/-- The loop of `totalUsedTokens` from index `i` on. -/
def usedTokensFrom : List Uint → Uint → Uint → Except String Uint
  | [], _, usedTokens => .ok usedTokens
  | votes :: rest, i, usedTokens => do
      let usedTokens ← arith.add usedTokens votes
      let i ← arith.add i 1
      usedTokensFrom rest i usedTokens

def totalUsedTokens (votesForCandidate : List Uint) : Except String Uint :=
  usedTokensFrom arith votesForCandidate 0 0

/-- The loop of `indexOfCandidate` from index `i` on. -/
def indexFrom (candidate : Bytes32) : List Bytes32 → Uint → Except String Uint
  | [], _ => .ok (-1)
  | name :: rest, i =>
      if candidate = name then .ok i
      else do
        let i ← arith.add i 1
        indexFrom candidate rest i

def indexOfCandidate (voting : Voting) (candidate : Bytes32) : Except String Uint :=
  indexFrom arith candidate voting.candidateList.1 0

/-- The loop that creates the array of a voter, from index `i` on. -/
def pushFrom : List Bytes32 → Uint → List Uint → Except String (List Uint)
  | [], _, tokens => .ok tokens
  | _ :: rest, i, tokens => do
      let i ← arith.add i 1
      pushFrom rest i (tokens ++ [0])

/-- The first vote of a voter creates the array. -/
def createTokens (voting : Voting) (tokens : List Uint) : Except String (List Uint) :=
  if tokens.length = 0 then pushFrom arith voting.candidateList.1 0 tokens else .ok tokens

/-- A write outside of the array ends the call. -/
def voteForCandidate (voting : Voting) (msg : Message) (candidate : Bytes32)
    (voteTokens : Uint) : Except String Voting := do
  require (msg.value = 0) ""
  let index ← voting.indexOfCandidate arith candidate
  require (index ≠ -1) ""
  let voter := voting.voterInfo.get msg.sender
  let tokens ← voting.createTokens arith voter.tokensVoteForCandidates
  let usedTokens ← totalUsedTokens arith tokens
  let availableTokens ← arith.sub voter.tokenNum usedTokens
  require (voteTokens ≤ availableTokens) ""
  let received ← arith.add (voting.votesReceived.get candidate) voteTokens
  require (index.toNat < tokens.length) ""
  let given ← arith.add (tokens.getD index.toNat 0) voteTokens
  .ok { voting with
    votesReceived := voting.votesReceived.set candidate received
    voterInfo := voting.voterInfo.set msg.sender
      { voter with tokensVoteForCandidates := tokens.set index.toNat given } }

def tokenSold (voting : Voting) : Except String Uint :=
  arith.sub voting.totalTokens voting.tokenBalance

/-- The receiver has too little gas to call back. -/
def transfer (voting : Voting) (msg : Message) : Except String Voting := do
  require (msg.value = 0) ""
  require msg.accepts ""
  .ok { voting with balance := 0 }

def call (voting : Voting) (msg : Message) : Vote → Except String Voting
  | .buy => voting.buy arith msg
  | .voteForCandidate candidate voteTokens =>
      voting.voteForCandidate arith msg candidate voteTokens
  | .transfer _ => voting.transfer msg

end Functions

/-- A call that fails changes nothing. -/
def step (voting : Voting) (message : Message × Vote) : Voting :=
  match voting.call Arithmetic.wrapping message.1 message.2 with
  | .ok voting' => voting'
  | .error _ => voting

end Voting

end BlockchainTutorial.Auction
