import BlockchainTutorial.Auction.Escrow

namespace BlockchainTutorial.Auction

/-! `EcommerceStore.sol`. `sha3` is a parameter. -/

inductive ProductStatus where
  | open
  | sold
  | unsold
  deriving DecidableEq, Repr, Inhabited

inductive ProductCondition where
  | new
  | used
  deriving DecidableEq, Repr, Inhabited

/-- A number that is none of the enumeration makes the conversion revert. -/
def ProductCondition.ofUint? (n : Uint) : Option ProductCondition :=
  if n = 0 then some .new else if n = 1 then some .used else none

structure Bid where
  bidder : Address
  productId : Uint
  value : Uint
  revealed : Bool
  deriving DecidableEq, Inhabited

structure Product where
  id : Uint
  name : Bytes
  category : Bytes
  imageLink : Bytes
  descLink : Bytes
  auctionStartTime : Uint
  auctionEndTime : Uint
  startPrice : Uint
  highestBidder : Address
  highestBid : Uint
  secondHighestBid : Uint
  totalBids : Uint
  status : ProductStatus
  condition : ProductCondition
  bids : Lib.Mapping (Address × Bytes32) Bid

instance : Inhabited Product :=
  ⟨⟨0, [], [], [], [], 0, 0, 0, 0, 0, 0, 0, .open, .new, ∅⟩⟩

/-- `escrows` are the contracts that the store created; the address of one is its
place. `balance` is the ether of the store, and `transfers` what it has sent. -/
structure EcommerceStore where
  productIndex : Uint
  productIdInStore : Lib.Mapping Uint Address
  stores : Lib.Mapping (Address × Uint) Product
  productEscrow : Lib.Mapping Uint (Option Nat)
  escrows : List Escrow
  balance : Nat
  transfers : List (Address × Uint)

/-- Nobody sends from address zero. `accepts` tells whether the receiver of each
transfer of the call takes it. -/
structure CallInfo where
  sender : Address
  value : Uint
  now : Uint
  accepts : Nat → Bool
  sender_ne : sender ≠ 0

namespace EcommerceStore

def create : EcommerceStore where
  productIndex := 0
  productIdInStore := ∅
  stores := ∅
  productEscrow := ∅
  escrows := []
  balance := 0
  transfers := []

/-- The receiver may refuse, and has too little gas to call back. -/
def transfer (store : EcommerceStore) (call : CallInfo) (n : Nat) (receiver : Address)
    (amount : Uint) : Except String EcommerceStore :=
  if amount.toNat ≤ store.balance ∧ call.accepts n then
    .ok { store with
      balance := store.balance - amount.toNat
      transfers := store.transfers ++ [(receiver, amount)] }
  else .error ""

def slot (store : EcommerceStore) (productId : Uint) : Address × Uint :=
  (store.productIdInStore.get productId, productId)

def setProduct (store : EcommerceStore) (slot : Address × Uint) (product : Product) :
    EcommerceStore :=
  { store with stores := store.stores.set slot product }

/-- A new product is written over the fields of its place; the mapping in it stays. -/
def addProductToStore (store : EcommerceStore) (call : CallInfo)
    (name category imageLink descLink : Bytes)
    (auctionStartTime auctionEndTime startPrice productCondition : Uint) :
    Except String EcommerceStore := do
  require (call.value = 0) ""
  require (auctionStartTime < auctionEndTime)
    "Auction start time should be earlier than end time."
  let productIndex := store.productIndex + 1
  match ProductCondition.ofUint? productCondition with
  | none => .error ""
  | some condition =>
      let key := (call.sender, productIndex)
      .ok { store with
        productIndex
        stores := store.stores.set key
          ⟨productIndex, name, category, imageLink, descLink, auctionStartTime,
            auctionEndTime, startPrice, 0, 0, 0, 0, .open, condition,
            (store.stores.get key).bids⟩
        productIdInStore := store.productIdInStore.set productIndex call.sender }

def bid (store : EcommerceStore) (call : CallInfo) (productId : Uint)
    (sealedBid : Bytes32) : Except String EcommerceStore := do
  let store := { store with balance := store.balance + call.value.toNat }
  let key := store.slot productId
  let product := store.stores.get key
  require (product.auctionStartTime ≤ call.now)
    "Current time should be later than auction start time"
  require (call.now ≤ product.auctionEndTime)
    "Current time should be earlier than auction end time"
  require (product.startPrice < call.value) "Value should be larger than start price"
  require ((product.bids.get (call.sender, sealedBid)).bidder = 0) "Bidder should be null"
  .ok (store.setProduct key { product with
    bids := product.bids.set (call.sender, sealedBid)
      ⟨call.sender, productId, call.value, false⟩
    totalBids := product.totalBids + 1 })

/-- Bytes that are no digits are passed over. -/
def stringToUint (s : Bytes) : Uint :=
  s.foldl (fun result b =>
    if 48 ≤ b ∧ b ≤ 57 then result * 10 + (BitVec.ofNat 256 b.toNat - 48) else result) 0

/-- The branches of `revealBid`: the product and the refund of the revealed bid, and
the ether left after the highest bid was given back. -/
def revealed (store : EcommerceStore) (call : CallInfo) (product : Product)
    (bidInfo : Bid) (amount : Uint) : Except String (EcommerceStore × Product × Uint) :=
  if bidInfo.value < amount then
    .ok (store, product, bidInfo.value)
  else if product.highestBidder = 0 then
    .ok (store, { product with
      highestBidder := call.sender
      highestBid := amount
      secondHighestBid := product.startPrice }, bidInfo.value - amount)
  else if product.highestBid < amount then do
    let store ← store.transfer call 0 product.highestBidder product.highestBid
    .ok (store, { product with
      secondHighestBid := product.highestBid
      highestBid := amount
      highestBidder := call.sender }, bidInfo.value - amount)
  else if product.secondHighestBid < amount then
    .ok (store, { product with secondHighestBid := amount }, bidInfo.value)
  else
    .ok (store, product, bidInfo.value)

def revealBid (sha3 : Bytes → Bytes32) (store : EcommerceStore) (call : CallInfo)
    (productId : Uint) (amountText secret : Bytes) : Except String EcommerceStore := do
  require (call.value = 0) ""
  let key := store.slot productId
  let product := store.stores.get key
  require (product.auctionEndTime ≤ call.now) ""
  let sealedBid := sha3 (amountText ++ secret)
  let bidInfo := product.bids.get (call.sender, sealedBid)
  require (0 < bidInfo.bidder) "Bidder should exist"
  require (bidInfo.revealed = false) "Bid should not be revealed"
  let (store, product, refund) ←
    store.revealed call product bidInfo (stringToUint amountText)
  let store := store.setProduct key { product with
    bids := product.bids.set (call.sender, sealedBid) { bidInfo with revealed := true } }
  if 0 < refund then store.transfer call 1 call.sender refund else .ok store

def finalizeAuction (store : EcommerceStore) (call : CallInfo) (productId : Uint) :
    Except String EcommerceStore := do
  require (call.value = 0) ""
  let key := store.slot productId
  let product := store.stores.get key
  require (product.auctionEndTime < call.now)
    "Current time should be later than auction end time"
  require (product.status = .open) "Product status should be open"
  require (call.sender ≠ store.productIdInStore.get productId) "Caller should not be seller"
  require (call.sender ≠ product.highestBidder) "Caller should not be buyer"
  if product.highestBidder = 0 then
    .ok (store.setProduct key { product with status := .unsold })
  else
    -- the ether goes with the creation of the escrow, which takes it
    require (product.secondHighestBid.toNat ≤ store.balance) ""
    let store := { store with
      balance := store.balance - product.secondHighestBid.toNat
      escrows := store.escrows ++
        [Escrow.create productId (store.productIdInStore.get productId) product.highestBidder
          call.sender product.secondHighestBid]
      productEscrow := store.productEscrow.set productId (some store.escrows.length) }
    let refund := product.highestBid - product.secondHighestBid
    let store ← store.transfer call 0 product.highestBidder refund
    .ok (store.setProduct key { product with status := .sold })

/-- There is no contract at address zero. -/
def atEscrow (store : EcommerceStore) (place : Option Nat)
    (function : Escrow → Except String Escrow) : Except String EcommerceStore :=
  match place with
  | none => .error ""
  | some n =>
      match store.escrows[n]? with
      | none => .error ""
      | some escrow => do
          let escrow ← function escrow
          .ok { store with escrows := store.escrows.set n escrow }

def releaseAmountToSeller (store : EcommerceStore) (call : CallInfo) (productId : Uint) :
    Except String EcommerceStore := do
  require (call.value = 0) ""
  store.atEscrow (store.productEscrow.get productId) fun escrow =>
    escrow.realseAmountToSeller (call.accepts 0) call.sender

def refundAmountToBuyer (store : EcommerceStore) (call : CallInfo) (productId : Uint) :
    Except String EcommerceStore := do
  require (call.value = 0) ""
  store.atEscrow (store.productEscrow.get productId) fun escrow =>
    escrow.refundAmountToBuyer (call.accepts 0) call.sender

end EcommerceStore

inductive Function where
  | addProductToStore (name category imageLink descLink : Bytes)
      (auctionStartTime auctionEndTime startPrice productCondition : Uint)
  | bid (productId : Uint) (sealedBid : Bytes32)
  | revealBid (productId : Uint) (amountText secret : Bytes)
  | finalizeAuction (productId : Uint)
  | releaseAmountToSeller (productId : Uint)
  | refundAmountToBuyer (productId : Uint)

/-- The contract at the time of the last call. -/
structure Chain where
  store : EcommerceStore
  time : Uint

structure Call where
  info : CallInfo
  function : Function

namespace Chain

def create : Chain := ⟨.create, 0⟩

def run (sha3 : Bytes → Bytes32) (store : EcommerceStore) (call : Call) :
    Except String EcommerceStore :=
  match call.function with
  | .addProductToStore name category imageLink descLink start finish price condition =>
      store.addProductToStore call.info name category imageLink descLink start finish price
        condition
  | .bid productId sealedBid => store.bid call.info productId sealedBid
  | .revealBid productId amountText secret =>
      store.revealBid sha3 call.info productId amountText secret
  | .finalizeAuction productId => store.finalizeAuction call.info productId
  | .releaseAmountToSeller productId => store.releaseAmountToSeller call.info productId
  | .refundAmountToBuyer productId => store.refundAmountToBuyer call.info productId

/-- One call that does not revert, at the time of the last one or later. There is less
ether than a balance can hold. -/
def step (sha3 : Bytes → Bytes32) (chain : Chain) (call : Call) : Option Chain :=
  if chain.time ≤ call.info.now ∧
      chain.store.balance + call.info.value.toNat < 2 ^ 256 then
    match run sha3 chain.store call with
    | .ok store => some ⟨store, call.info.now⟩
    | .error _ => none
  else none

end Chain

abbrev ChainRun (sha3 : Bytes → Bytes32) := Lib.Run Chain.create (Chain.step sha3)

end BlockchainTutorial.Auction
