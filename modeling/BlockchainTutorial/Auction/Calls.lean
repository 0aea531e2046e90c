import Mathlib.Algebra.Ring.Nat
import BlockchainTutorial.Auction.EcommerceStore

namespace BlockchainTutorial.Auction

/-! What a call of the store does that does not revert. -/

/-- The ether of a list of transfers. -/
def ether (transfers : List (Address × Uint)) : Nat :=
  (transfers.map (·.2.toNat)).sum

@[simp] theorem ether_nil : ether [] = 0 := rfl

@[simp] theorem ether_singleton (transfer : Address × Uint) :
    ether [transfer] = transfer.2.toNat := by
  simp [ether]

@[simp] theorem ether_append (front back : List (Address × Uint)) :
    ether (front ++ back) = ether front + ether back := by
  simp [ether]

namespace EcommerceStore

variable {store store' : EcommerceStore} {call : CallInfo} {productId : Uint}

theorem transfer_eq_ok {n : Nat} {receiver : Address} {amount : Uint}
    (h : store.transfer call n receiver amount = .ok store') :
    amount.toNat ≤ store.balance ∧
      store' = { store with
        balance := store.balance - amount.toNat
        transfers := store.transfers ++ [(receiver, amount)] } := by
  unfold transfer at h
  split at h
  · rename_i haccepted
    cases h
    exact ⟨haccepted.1, rfl⟩
  · cases h

theorem addProductToStore_eq_ok {name category imageLink descLink : Bytes}
    {auctionStartTime auctionEndTime startPrice productCondition : Uint}
    (h : store.addProductToStore call name category imageLink descLink auctionStartTime
      auctionEndTime startPrice productCondition = .ok store') :
    ∃ condition, store' = { store with
      productIndex := store.productIndex + 1
      stores := store.stores.set (call.sender, store.productIndex + 1)
        ⟨store.productIndex + 1, name, category, imageLink, descLink, auctionStartTime,
          auctionEndTime, startPrice, 0, 0, 0, 0, .open, condition,
          (store.stores.get (call.sender, store.productIndex + 1)).bids⟩
      productIdInStore :=
        store.productIdInStore.set (store.productIndex + 1) call.sender } := by
  unfold addProductToStore at h
  obtain ⟨_, h⟩ := require_bind_eq_ok.mp h
  obtain ⟨_, h⟩ := require_bind_eq_ok.mp h
  cases hcondition : ProductCondition.ofUint? productCondition with
  | none => simp [hcondition] at h
  | some condition =>
      simp only [hcondition, Except.ok.injEq] at h
      exact ⟨condition, h.symm⟩

structure Bids (store : EcommerceStore) (call : CallInfo) (productId : Uint)
    (sealedBid : Bytes32) (store' : EcommerceStore) : Prop where
  started : (store.stores.get (store.slot productId)).auctionStartTime ≤ call.now
  running : call.now ≤ (store.stores.get (store.slot productId)).auctionEndTime
  price : (store.stores.get (store.slot productId)).startPrice < call.value
  free : ((store.stores.get (store.slot productId)).bids.get (call.sender, sealedBid)).bidder = 0
  eq : store' = { store with
    balance := store.balance + call.value.toNat
    stores := store.stores.set (store.slot productId)
      { store.stores.get (store.slot productId) with
        bids := (store.stores.get (store.slot productId)).bids.set (call.sender, sealedBid)
          ⟨call.sender, productId, call.value, false⟩
        totalBids := (store.stores.get (store.slot productId)).totalBids + 1 } }

theorem bid_eq_ok {sealedBid : Bytes32} (h : store.bid call productId sealedBid = .ok store') :
    Bids store call productId sealedBid store' := by
  unfold bid at h
  obtain ⟨hstarted, h⟩ := require_bind_eq_ok.mp h
  obtain ⟨hrunning, h⟩ := require_bind_eq_ok.mp h
  obtain ⟨hprice, h⟩ := require_bind_eq_ok.mp h
  obtain ⟨hfree, h⟩ := require_bind_eq_ok.mp h
  cases h
  exact ⟨of_decide_eq_true hstarted, of_decide_eq_true hrunning, of_decide_eq_true hprice,
    of_decide_eq_true hfree, rfl⟩

/-- The branches of `revealBid`: the product, what is refunded to the sender, and what
is paid before that. -/
inductive Revealed (sender : Address) (product : Product) (bidInfo : Bid) (amount : Uint) :
    Product → Uint → List (Address × Uint) → Prop
  | short (hshort : bidInfo.value < amount) :
      Revealed sender product bidInfo amount product bidInfo.value []
  | first (hcovered : amount ≤ bidInfo.value) (hfirst : product.highestBidder = 0) :
      Revealed sender product bidInfo amount
        { product with
          highestBidder := sender
          highestBid := amount
          secondHighestBid := product.startPrice } (bidInfo.value - amount) []
  | outbid (hcovered : amount ≤ bidInfo.value) (hnext : product.highestBidder ≠ 0)
      (hhigher : product.highestBid < amount) :
      Revealed sender product bidInfo amount
        { product with
          secondHighestBid := product.highestBid
          highestBid := amount
          highestBidder := sender } (bidInfo.value - amount)
        [(product.highestBidder, product.highestBid)]
  | second (hcovered : amount ≤ bidInfo.value) (hnext : product.highestBidder ≠ 0)
      (hhigher : amount ≤ product.highestBid) (hsecond : product.secondHighestBid < amount) :
      Revealed sender product bidInfo amount { product with secondHighestBid := amount }
        bidInfo.value []
  | lower (hcovered : amount ≤ bidInfo.value) (hnext : product.highestBidder ≠ 0)
      (hhigher : amount ≤ product.highestBid) (hsecond : amount ≤ product.secondHighestBid) :
      Revealed sender product bidInfo amount product bidInfo.value []

theorem Revealed.frame {sender : Address} {product product' : Product} {bidInfo : Bid}
    {amount refund : Uint} {paid : List (Address × Uint)}
    (h : Revealed sender product bidInfo amount product' refund paid) :
    product'.bids = product.bids ∧ product'.status = product.status ∧
      product'.startPrice = product.startPrice ∧
      product'.auctionEndTime = product.auctionEndTime := by
  cases h <;> exact ⟨rfl, rfl, rfl, rfl⟩

theorem revealed_eq_ok {product product' : Product} {bidInfo : Bid} {amount refund : Uint}
    (h : store.revealed call product bidInfo amount = .ok (store', product', refund)) :
    ∃ paid balance, Revealed call.sender product bidInfo amount product' refund paid ∧
      balance + ether paid = store.balance ∧
      store' = { store with balance, transfers := store.transfers ++ paid } := by
  unfold revealed at h
  split at h
  · rename_i hshort
    cases h
    exact ⟨[], store.balance, .short hshort, rfl, by rw [List.append_nil]⟩
  · rename_i hshort
    have hcovered := BitVec.not_lt.mp hshort
    split at h
    · rename_i hfirst
      cases h
      exact ⟨[], store.balance, .first hcovered hfirst, rfl, by rw [List.append_nil]⟩
    · rename_i hnext
      split at h
      · rename_i hhigher
        obtain ⟨paid, htransfer, h⟩ := bind_eq_ok.mp h
        obtain ⟨hfunds, rfl⟩ := transfer_eq_ok htransfer
        cases h
        refine ⟨_, _, .outbid hcovered hnext hhigher, ?_, rfl⟩
        rw [ether_singleton]
        exact Nat.sub_add_cancel hfunds
      · rename_i hlower
        have hlower := BitVec.not_lt.mp hlower
        split at h
        · rename_i hsecond
          cases h
          exact ⟨[], store.balance, .second hcovered hnext hlower hsecond, rfl, by
            rw [List.append_nil]⟩
        · rename_i hsecond
          cases h
          have hsecond := BitVec.not_lt.mp hsecond
          exact ⟨[], store.balance, .lower hcovered hnext hlower hsecond, rfl, by
            rw [List.append_nil]⟩

/-- Nothing is sent when there is nothing to refund. -/
def refunds (receiver : Address) (refund : Uint) : List (Address × Uint) :=
  if 0 < refund then [(receiver, refund)] else []

structure Reveals (sha3 : Bytes → Bytes32) (store : EcommerceStore) (call : CallInfo)
    (productId : Uint) (amountText secret : Bytes) (store' : EcommerceStore) (bidInfo : Bid)
    (product' : Product) (refund : Uint) (paid : List (Address × Uint)) : Prop where
  ended : (store.stores.get (store.slot productId)).auctionEndTime ≤ call.now
  bidInfo_eq : bidInfo = (store.stores.get (store.slot productId)).bids.get
    (call.sender, sha3 (amountText ++ secret))
  bidder : bidInfo.bidder ≠ 0
  hidden : bidInfo.revealed = false
  revealed : Revealed call.sender (store.stores.get (store.slot productId)) bidInfo
    (stringToUint amountText) product' refund paid
  eq : ∃ balance, balance + ether (paid ++ refunds call.sender refund) = store.balance ∧
    store' = { store with
    balance
    stores := store.stores.set (store.slot productId)
      { product' with
        bids := product'.bids.set (call.sender, sha3 (amountText ++ secret))
          { bidInfo with revealed := true } }
    transfers := store.transfers ++ (paid ++ refunds call.sender refund) }

theorem revealBid_eq_ok {sha3 : Bytes → Bytes32} {amountText secret : Bytes}
    (h : store.revealBid sha3 call productId amountText secret = .ok store') :
    ∃ bidInfo product' refund paid, Reveals sha3 store call productId amountText secret store'
      bidInfo product' refund paid := by
  unfold revealBid at h
  obtain ⟨_, h⟩ := require_bind_eq_ok.mp h
  obtain ⟨hended, h⟩ := require_bind_eq_ok.mp h
  obtain ⟨hbidder, h⟩ := require_bind_eq_ok.mp h
  obtain ⟨hhidden, h⟩ := require_bind_eq_ok.mp h
  obtain ⟨⟨paidStore, product', refund⟩, hrevealed, h⟩ := bind_eq_ok.mp h
  obtain ⟨paid, balance, hbranch, hbalance, rfl⟩ := revealed_eq_ok hrevealed
  have hbidder : 0 < ((store.stores.get (store.slot productId)).bids.get
      (call.sender, sha3 (amountText ++ secret))).bidder := of_decide_eq_true hbidder
  refine ⟨_, product', refund, paid, of_decide_eq_true hended, rfl, ?_,
    of_decide_eq_true hhidden, hbranch, ?_⟩
  · intro hzero
    rw [hzero] at hbidder
    exact absurd hbidder (by decide)
  · dsimp only at h
    split at h
    · rename_i hrefund
      obtain ⟨hfunds, rfl⟩ := transfer_eq_ok h
      have hfunds : refund.toNat ≤ balance := hfunds
      rw [refunds, if_pos hrefund]
      refine ⟨balance - refund.toNat, ?_, ?_⟩
      · rw [ether_append, ether_singleton]
        dsimp only
        omega
      · rw [← List.append_assoc]
        rfl
    · rename_i hrefund
      cases h
      rw [refunds, if_neg hrefund, List.append_nil]
      exact ⟨balance, hbalance, rfl⟩

/-- A sold product gets an escrow, and its bidder the rest of the bid. -/
inductive Finalized (store : EcommerceStore) (call : CallInfo) (productId : Uint)
    (product : Product) : EcommerceStore → Prop
  | unsold (hnone : product.highestBidder = 0) :
      Finalized store call productId product
        (store.setProduct (store.slot productId) { product with status := .unsold })
  | sold (balance : Nat) (refund : Uint) (hsold : product.highestBidder ≠ 0)
      (hrefund : refund = product.highestBid - product.secondHighestBid)
      (hbalance : balance + refund.toNat + product.secondHighestBid.toNat = store.balance) :
      Finalized store call productId product { store with
        balance
        stores := store.stores.set (store.slot productId) { product with status := .sold }
        escrows := store.escrows ++ [Escrow.create productId
          (store.productIdInStore.get productId) product.highestBidder call.sender
          product.secondHighestBid]
        productEscrow := store.productEscrow.set productId (some store.escrows.length)
        transfers := store.transfers ++ [(product.highestBidder, refund)] }

theorem finalizeAuction_eq_ok (h : store.finalizeAuction call productId = .ok store') :
    (store.stores.get (store.slot productId)).auctionEndTime < call.now ∧
      (store.stores.get (store.slot productId)).status = .open ∧
      Finalized store call productId (store.stores.get (store.slot productId)) store' := by
  unfold finalizeAuction at h
  obtain ⟨_, h⟩ := require_bind_eq_ok.mp h
  obtain ⟨hended, h⟩ := require_bind_eq_ok.mp h
  obtain ⟨hopen, h⟩ := require_bind_eq_ok.mp h
  obtain ⟨_, h⟩ := require_bind_eq_ok.mp h
  obtain ⟨_, h⟩ := require_bind_eq_ok.mp h
  refine ⟨of_decide_eq_true hended, of_decide_eq_true hopen, ?_⟩
  generalize store.stores.get (store.slot productId) = product at *
  split at h
  · rename_i hnone
    cases h
    exact .unsold hnone
  · rename_i hsold
    obtain ⟨hfunds, h⟩ := require_bind_eq_ok.mp h
    obtain ⟨paidStore, htransfer, h⟩ := bind_eq_ok.mp h
    obtain ⟨hrefund, rfl⟩ := transfer_eq_ok htransfer
    cases h
    have hfunds : product.secondHighestBid.toNat ≤ store.balance := of_decide_eq_true hfunds
    have hrefund : (product.highestBid - product.secondHighestBid).toNat ≤
      store.balance - product.secondHighestBid.toNat := hrefund
    refine .sold (store.balance - product.secondHighestBid.toNat -
      (product.highestBid - product.secondHighestBid).toNat) _ hsold rfl ?_
    omega

theorem atEscrow_eq_ok {place : Option Nat} {function : Escrow → Except String Escrow}
    (h : store.atEscrow place function = .ok store') :
    ∃ n escrow escrow', place = some n ∧ store.escrows[n]? = some escrow ∧
      function escrow = .ok escrow' ∧
      store' = { store with escrows := store.escrows.set n escrow' } := by
  unfold atEscrow at h
  split at h
  · cases h
  · rename_i n
    split at h
    · cases h
    · rename_i escrow hescrow
      obtain ⟨escrow', hcall, h⟩ := bind_eq_ok.mp h
      cases h
      exact ⟨n, escrow, escrow', rfl, hescrow, hcall, rfl⟩

theorem releaseAmountToSeller_eq_ok
    (h : store.releaseAmountToSeller call productId = .ok store') :
    ∃ n escrow escrow', store.productEscrow.get productId = some n ∧
      store.escrows[n]? = some escrow ∧
      escrow.call .release (call.accepts 0) call.sender = .ok escrow' ∧
      store' = { store with escrows := store.escrows.set n escrow' } :=
  atEscrow_eq_ok (require_bind_eq_ok.mp h).2

theorem refundAmountToBuyer_eq_ok
    (h : store.refundAmountToBuyer call productId = .ok store') :
    ∃ n escrow escrow', store.productEscrow.get productId = some n ∧
      store.escrows[n]? = some escrow ∧
      escrow.call .refund (call.accepts 0) call.sender = .ok escrow' ∧
      store' = { store with escrows := store.escrows.set n escrow' } :=
  atEscrow_eq_ok (require_bind_eq_ok.mp h).2

end EcommerceStore

def Function.creates : Function → Bool
  | .addProductToStore .. => true
  | _ => false

namespace Chain

def slot (store : EcommerceStore) (call : Call) : Address × Uint :=
  match call.function with
  | .addProductToStore .. => (call.info.sender, store.productIndex + 1)
  | .bid productId _ => store.slot productId
  | .revealBid productId _ _ => store.slot productId
  | .finalizeAuction productId => store.slot productId
  | .releaseAmountToSeller productId => store.slot productId
  | .refundAmountToBuyer productId => store.slot productId

inductive Ran (sha3 : Bytes → Bytes32) (store : EcommerceStore) (info : CallInfo) :
    Function → EcommerceStore → Prop
  | addProductToStore (name category imageLink descLink : Bytes)
      (auctionStartTime auctionEndTime startPrice productCondition : Uint)
      (condition : ProductCondition) :
      Ran sha3 store info (.addProductToStore name category imageLink descLink
        auctionStartTime auctionEndTime startPrice productCondition)
        { store with
          productIndex := store.productIndex + 1
          stores := store.stores.set (info.sender, store.productIndex + 1)
            ⟨store.productIndex + 1, name, category, imageLink, descLink, auctionStartTime,
              auctionEndTime, startPrice, 0, 0, 0, 0, .open, condition,
              (store.stores.get (info.sender, store.productIndex + 1)).bids⟩
          productIdInStore :=
            store.productIdInStore.set (store.productIndex + 1) info.sender }
  | bid (productId : Uint) (sealedBid : Bytes32) (store' : EcommerceStore)
      (hbids : store.Bids info productId sealedBid store') :
      Ran sha3 store info (.bid productId sealedBid) store'
  | revealBid (productId : Uint) (amountText secret : Bytes) (store' : EcommerceStore)
      (bidInfo : Bid) (product' : Product) (refund : Uint) (paid : List (Address × Uint))
      (hreveals : store.Reveals sha3 info productId amountText secret store' bidInfo product'
        refund paid) :
      Ran sha3 store info (.revealBid productId amountText secret) store'
  | finalizeAuction (productId : Uint) (store' : EcommerceStore)
      (hended : (store.stores.get (store.slot productId)).auctionEndTime < info.now)
      (hopen : (store.stores.get (store.slot productId)).status = .open)
      (hfinalized : store.Finalized info productId
        (store.stores.get (store.slot productId)) store') :
      Ran sha3 store info (.finalizeAuction productId) store'
  | releaseAmountToSeller (productId : Uint) (n : Nat) (escrow escrow' : Escrow)
      (hplace : store.productEscrow.get productId = some n)
      (hescrow : store.escrows[n]? = some escrow)
      (hcall : escrow.call .release (info.accepts 0) info.sender = .ok escrow') :
      Ran sha3 store info (.releaseAmountToSeller productId)
        { store with escrows := store.escrows.set n escrow' }
  | refundAmountToBuyer (productId : Uint) (n : Nat) (escrow escrow' : Escrow)
      (hplace : store.productEscrow.get productId = some n)
      (hescrow : store.escrows[n]? = some escrow)
      (hcall : escrow.call .refund (info.accepts 0) info.sender = .ok escrow') :
      Ran sha3 store info (.refundAmountToBuyer productId)
        { store with escrows := store.escrows.set n escrow' }

theorem run_ran {sha3 : Bytes → Bytes32} {store store' : EcommerceStore} {call : Call}
    (h : run sha3 store call = .ok store') :
    Ran sha3 store call.info call.function store' := by
  unfold run at h
  cases hfunction : call.function with
  | addProductToStore name category imageLink descLink start finish price condition =>
      simp only [hfunction] at h
      obtain ⟨condition, rfl⟩ := EcommerceStore.addProductToStore_eq_ok h
      exact .addProductToStore _ _ _ _ _ _ _ _ condition
  | bid productId sealedBid =>
      simp only [hfunction] at h
      exact .bid _ _ _ (EcommerceStore.bid_eq_ok h)
  | revealBid productId amountText secret =>
      simp only [hfunction] at h
      obtain ⟨bidInfo, product', refund, paid, hreveals⟩ := EcommerceStore.revealBid_eq_ok h
      exact .revealBid _ _ _ _ _ _ _ _ hreveals
  | finalizeAuction productId =>
      simp only [hfunction] at h
      obtain ⟨hended, hopen, hfinalized⟩ := EcommerceStore.finalizeAuction_eq_ok h
      exact .finalizeAuction _ _ hended hopen hfinalized
  | releaseAmountToSeller productId =>
      simp only [hfunction] at h
      obtain ⟨n, escrow, escrow', hplace, hescrow, hcall, rfl⟩ :=
        EcommerceStore.releaseAmountToSeller_eq_ok h
      exact .releaseAmountToSeller _ _ _ _ hplace hescrow hcall
  | refundAmountToBuyer productId =>
      simp only [hfunction] at h
      obtain ⟨n, escrow, escrow', hplace, hescrow, hcall, rfl⟩ :=
        EcommerceStore.refundAmountToBuyer_eq_ok h
      exact .refundAmountToBuyer _ _ _ _ hplace hescrow hcall

theorem step_eq_some {sha3 : Bytes → Bytes32} {chain chain' : Chain} {call : Call}
    (h : step sha3 chain call = some chain') :
    chain.time ≤ call.info.now ∧ chain.store.balance + call.info.value.toNat < 2 ^ 256 ∧
      run sha3 chain.store call = .ok chain'.store ∧ chain'.time = call.info.now := by
  unfold step at h
  split at h
  · rename_i hguard
    split at h
    · rename_i store hrun
      cases h
      exact ⟨hguard.1, hguard.2, hrun, rfl⟩
    · cases h
  · cases h

/-- A call leaves all products but one alone. -/
theorem Ran.others {sha3 : Bytes → Bytes32} {store store' : EcommerceStore} {info : CallInfo}
    {function : Function} (h : Ran sha3 store info function store') {other : Address × Uint}
    (hother : other ≠ slot store ⟨info, function⟩) :
    store'.stores.get other = store.stores.get other := by
  unfold slot at hother
  cases h with
  | addProductToStore => exact Lib.Mapping.get_set_of_ne _ _ hother
  | bid productId sealedBid _ hbids =>
      rw [hbids.eq]
      exact Lib.Mapping.get_set_of_ne _ _ hother
  | revealBid productId amountText secret _ bidInfo product' refund paid hreveals =>
      obtain ⟨_, _, rfl⟩ := hreveals.eq
      exact Lib.Mapping.get_set_of_ne _ _ hother
  | finalizeAuction productId _ hended hopen hfinalized =>
      cases hfinalized with
      | unsold => exact Lib.Mapping.get_set_of_ne _ _ hother
      | sold => exact Lib.Mapping.get_set_of_ne _ _ hother
  | releaseAmountToSeller => rfl
  | refundAmountToBuyer => rfl

/-- What a call does to its product, and what it pays. -/
inductive Moves (sha3 : Bytes → Bytes32) (info : CallInfo) (product : Product) :
    Function → Product → List (Address × Uint) → Prop
  | addProductToStore (name category imageLink descLink : Bytes)
      (auctionStartTime auctionEndTime startPrice productCondition : Uint)
      (product' : Product) (hnobody : product'.highestBidder = 0)
      (hbids : product'.bids = product.bids) :
      Moves sha3 info product (.addProductToStore name category imageLink descLink
        auctionStartTime auctionEndTime startPrice productCondition) product' []
  | bid (productId : Uint) (sealedBid : Bytes32)
      (hstarted : product.auctionStartTime ≤ info.now)
      (hrunning : info.now ≤ product.auctionEndTime)
      (hfree : (product.bids.get (info.sender, sealedBid)).bidder = 0) :
      Moves sha3 info product (.bid productId sealedBid)
        { product with
          bids := product.bids.set (info.sender, sealedBid)
            ⟨info.sender, productId, info.value, false⟩
          totalBids := product.totalBids + 1 } []
  | revealBid (productId : Uint) (amountText secret : Bytes) (bidInfo : Bid)
      (product' : Product) (refund : Uint) (paid : List (Address × Uint))
      (hended : product.auctionEndTime ≤ info.now)
      (hbidInfo : bidInfo = product.bids.get (info.sender, sha3 (amountText ++ secret)))
      (hbidder : bidInfo.bidder ≠ 0) (hhidden : bidInfo.revealed = false)
      (hrevealed : EcommerceStore.Revealed info.sender product bidInfo
        (EcommerceStore.stringToUint amountText) product' refund paid) :
      Moves sha3 info product (.revealBid productId amountText secret)
        { product' with
          bids := product'.bids.set (info.sender, sha3 (amountText ++ secret))
            { bidInfo with revealed := true } }
        (paid ++ EcommerceStore.refunds info.sender refund)
  | finalizeAuction (productId : Uint) (status : ProductStatus)
      (paid : List (Address × Uint)) (hended : product.auctionEndTime < info.now)
      (hopen : product.status = .open) (hclosed : status ≠ .open) :
      Moves sha3 info product (.finalizeAuction productId) { product with status } paid
  | releaseAmountToSeller (productId : Uint) :
      Moves sha3 info product (.releaseAmountToSeller productId) product []
  | refundAmountToBuyer (productId : Uint) :
      Moves sha3 info product (.refundAmountToBuyer productId) product []

/-- The call puts a new product into the slot. -/
def creates (slot : Address × Uint) (chain : Chain) (call : Call) : Prop :=
  call.function.creates = true ∧ Chain.slot chain.store call = slot

instance (slot : Address × Uint) (chain : Chain) (call : Call) :
    Decidable (creates slot chain call) :=
  inferInstanceAs (Decidable (_ ∧ _))

theorem Moves.frame {sha3 : Bytes → Bytes32} {info : CallInfo} {function : Function}
    {product product' : Product} {paid : List (Address × Uint)}
    (h : Moves sha3 info product function product' paid) (hold : function.creates = false) :
    product'.startPrice = product.startPrice ∧
      product'.auctionEndTime = product.auctionEndTime := by
  cases h with
  | addProductToStore => cases hold
  | revealBid productId amountText secret bidInfo product' refund paid hended hbidInfo hbidder
      hhidden hrevealed => exact hrevealed.frame.2.2
  | _ => exact ⟨rfl, rfl⟩

theorem Ran.moves {sha3 : Bytes → Bytes32} {store store' : EcommerceStore} {info : CallInfo}
    {function : Function} (h : Ran sha3 store info function store') :
    ∃ paid, store'.transfers = store.transfers ++ paid ∧
      Moves sha3 info (store.stores.get (slot store ⟨info, function⟩)) function
        (store'.stores.get (slot store ⟨info, function⟩)) paid := by
  unfold slot
  cases h with
  | addProductToStore =>
      refine ⟨[], (List.append_nil _).symm, ?_⟩
      dsimp only
      rw [Lib.Mapping.get_set_self]
      exact .addProductToStore _ _ _ _ _ _ _ _ _ rfl rfl
  | bid productId sealedBid _ hbids =>
      refine ⟨[], ?_, ?_⟩
      · rw [hbids.eq, List.append_nil]
      · rw [hbids.eq]
        dsimp only
        rw [Lib.Mapping.get_set_self]
        exact .bid _ _ hbids.started hbids.running hbids.free
  | revealBid productId amountText secret _ bidInfo product' refund paid hreveals =>
      obtain ⟨balance, _, heq⟩ := hreveals.eq
      refine ⟨paid ++ EcommerceStore.refunds info.sender refund, by rw [heq], ?_⟩
      rw [heq]
      dsimp only
      rw [Lib.Mapping.get_set_self]
      exact .revealBid _ _ _ _ _ _ _ hreveals.ended hreveals.bidInfo_eq hreveals.bidder
        hreveals.hidden hreveals.revealed
  | finalizeAuction productId _ hended hopen hfinalized =>
      cases hfinalized with
      | unsold =>
          refine ⟨[], (List.append_nil _).symm, ?_⟩
          dsimp only [EcommerceStore.setProduct]
          rw [Lib.Mapping.get_set_self]
          exact .finalizeAuction _ _ _ hended hopen (by decide)
      | sold =>
          refine ⟨_, rfl, ?_⟩
          dsimp only
          rw [Lib.Mapping.get_set_self]
          exact .finalizeAuction _ _ _ hended hopen (by decide)
  | releaseAmountToSeller => exact ⟨[], (List.append_nil _).symm, .releaseAmountToSeller _⟩
  | refundAmountToBuyer => exact ⟨[], (List.append_nil _).symm, .refundAmountToBuyer _⟩

theorem step_ran {sha3 : Bytes → Bytes32} {chain chain' : Chain} {call : Call}
    (h : step sha3 chain call = some chain') :
    Ran sha3 chain.store call.info call.function chain'.store :=
  run_ran (step_eq_some h).2.2.1

end Chain

end BlockchainTutorial.Auction
