import Mathlib.Algebra.BigOperators.Group.Finset.Basic
import BlockchainTutorial.Auction.Calls

namespace BlockchainTutorial.Auction

/-! What the contract owes, and the ether it has. -/

def Bid.unrevealed (bid : Bid) : Nat :=
  if bid.bidder ≠ 0 ∧ bid.revealed = false then bid.value.toNat else 0

def Product.unrevealedBids (product : Product) : Nat :=
  product.bids.total fun _ bid => bid.unrevealed

def Product.openBid (product : Product) : Nat :=
  if product.status = .open ∧ product.highestBidder ≠ 0 then product.highestBid.toNat else 0

def Product.owed (product : Product) : Nat :=
  product.unrevealedBids + product.openBid

def EcommerceStore.owed (store : EcommerceStore) : Nat :=
  store.stores.total fun _ product => product.owed

theorem Product.unrevealedBids_set (product : Product) (key : Address × Bytes32) (bid : Bid) :
    (product.bids.set key bid).total (fun _ bid => bid.unrevealed) +
        (product.bids.get key).unrevealed =
      product.unrevealedBids + bid.unrevealed :=
  Lib.Mapping.total_set (fun _ bid => bid.unrevealed) product.bids key bid rfl

theorem Product.owed_default : (default : Product).owed = 0 := rfl

theorem Product.openBid_of_open {product : Product} (hopen : product.status = .open)
    (hbidder : product.highestBidder ≠ 0) : product.openBid = product.highestBid.toNat :=
  if_pos ⟨hopen, hbidder⟩

theorem Product.openBid_of_closed {product : Product} (hclosed : product.status ≠ .open) :
    product.openBid = 0 :=
  if_neg fun h => hclosed h.1

theorem Product.openBid_of_first {product : Product} (hfirst : product.highestBidder = 0) :
    product.openBid = 0 :=
  if_neg fun h => h.2 hfirst

theorem Product.openBid_outbid {product : Product} (hopen : product.status = .open)
    {bidder : Address} (hbidder : bidder ≠ 0) (amount second : Uint) :
    Product.openBid { product with
      highestBidder := bidder, highestBid := amount, secondHighestBid := second } =
      amount.toNat :=
  if_pos ⟨hopen, hbidder⟩

theorem Product.openBid_outbid_closed {product : Product} (hclosed : product.status ≠ .open)
    (bidder : Address) (amount second : Uint) :
    Product.openBid { product with
      highestBidder := bidder, highestBid := amount, secondHighestBid := second } = 0 :=
  if_neg fun h => hclosed h.1

theorem Product.openBid_finalized (product : Product) {status : ProductStatus}
    (hstatus : status ≠ .open) : Product.openBid { product with status } = 0 :=
  if_neg fun h => hstatus h.1

/-! What a call does to the debt. -/

namespace EcommerceStore

/-- A call changes one product, and the ether by what it changes in the debt, but for
what it strands. -/
structure Settles (store store' : EcommerceStore) (slot : Address × Uint) (stranded : Nat) :
    Prop where
  total : store'.balance + store.owed = store.balance + store'.owed + stranded
  own : store'.balance + (store.stores.get slot).owed =
    store.balance + (store'.stores.get slot).owed + stranded
  others : ∀ other, other ≠ slot → store'.stores.get other = store.stores.get other

theorem Settles.of_set {store store' : EcommerceStore} {slot : Address × Uint}
    {stranded : Nat} (product : Product) (hstores : store'.stores = store.stores.set slot product)
    (hbalance : store'.balance + (store.stores.get slot).owed =
      store.balance + product.owed + stranded) : Settles store store' slot stranded := by
  refine ⟨?_, ?_, ?_⟩
  · have htotal := Lib.Mapping.total_set (fun _ product => product.owed) store.stores slot
      product Product.owed_default
    rw [← hstores] at htotal
    change store'.owed + _ = store.owed + _ at htotal
    omega
  · rw [hstores, Lib.Mapping.get_set_self]
    exact hbalance
  · intro other hother
    rw [hstores, Lib.Mapping.get_set_of_ne _ _ hother]

theorem Settles.of_same {store store' : EcommerceStore} (slot : Address × Uint)
    (hstores : store'.stores = store.stores) (hbalance : store'.balance = store.balance) :
    Settles store store' slot 0 := by
  refine ⟨?_, ?_, ?_⟩
  · rw [owed, owed, hstores, hbalance, Nat.add_zero]
  · rw [hstores, hbalance, Nat.add_zero]
  · intro other _
    rw [hstores]

theorem addProductToStore_settles {store store' : EcommerceStore} {call : CallInfo}
    {name category imageLink descLink : Bytes}
    {auctionStartTime auctionEndTime startPrice productCondition : Uint}
    (h : store.addProductToStore call name category imageLink descLink auctionStartTime
      auctionEndTime startPrice productCondition = .ok store') :
    Settles store store' (call.sender, store.productIndex + 1)
      (store.stores.get (call.sender, store.productIndex + 1)).openBid := by
  obtain ⟨condition, rfl⟩ := addProductToStore_eq_ok h
  refine .of_set _ rfl ?_
  simp only [Product.owed, Product.unrevealedBids, Product.openBid]
  simp
  omega

theorem bid_settles {store store' : EcommerceStore} {call : CallInfo} {productId : Uint}
    {sealedBid : Bytes32} (h : store.bid call productId sealedBid = .ok store') :
    Settles store store' (store.slot productId) 0 := by
  obtain ⟨_, _, _, hfree, rfl⟩ := bid_eq_ok h
  refine .of_set _ rfl ?_
  have hset := Product.unrevealedBids_set (store.stores.get (store.slot productId))
    (call.sender, sealedBid) ⟨call.sender, productId, call.value, false⟩
  have hnew : (⟨call.sender, productId, call.value, false⟩ : Bid).unrevealed =
      call.value.toNat := if_pos ⟨call.sender_ne, rfl⟩
  have hold : ((store.stores.get (store.slot productId)).bids.get
      (call.sender, sealedBid)).unrevealed = 0 :=
    if_neg fun hbidder => hbidder.1 hfree
  rw [hnew, hold] at hset
  calc store.balance + call.value.toNat + (store.stores.get (store.slot productId)).owed
    _ = store.balance + ((store.stores.get (store.slot productId)).unrevealedBids +
          call.value.toNat) + (store.stores.get (store.slot productId)).openBid := by
        unfold Product.owed
        omega
    _ = _ := by
        rw [← hset, Nat.add_assoc]
        rfl

/-- The highest bid of a product that is not open any more is kept for nobody. -/
def strandedByReveal (product : Product) (bidInfo : Bid) (amount : Uint) : Nat :=
  if product.status = .open ∨ bidInfo.value < amount then 0
  else if product.highestBidder = 0 then amount.toNat
  else amount.toNat - product.highestBid.toNat

theorem Revealed.settles {sender : Address} {product product' : Product} {bidInfo : Bid}
    {amount refund : Uint} {paid : List (Address × Uint)} (hsender : sender ≠ 0)
    (h : Revealed sender product bidInfo amount product' refund paid) :
    product'.bids = product.bids ∧
      product.openBid + bidInfo.value.toNat =
        product'.openBid + refund.toNat + ether paid +
          strandedByReveal product bidInfo amount := by
  have hlower (hnext : product.highestBidder ≠ 0) (hhigher : amount ≤ product.highestBid) :
      strandedByReveal product bidInfo amount = 0 := by
    have hhigher : amount.toNat ≤ product.highestBid.toNat := hhigher
    unfold strandedByReveal
    rw [if_neg hnext, Nat.sub_eq_zero_of_le hhigher, ite_self]
  have hrest (hcovered : amount ≤ bidInfo.value) :
      (bidInfo.value - amount).toNat + amount.toNat = bidInfo.value.toNat := by
    bv_omega
  cases h with
  | short hshort =>
      refine ⟨rfl, ?_⟩
      simp [strandedByReveal, hshort]
  | first hcovered hfirst =>
      have hamount := hrest hcovered
      refine ⟨rfl, ?_⟩
      rw [Product.openBid_of_first hfirst, ether_nil]
      by_cases hopen : product.status = .open
      · rw [Product.openBid_outbid hopen hsender, strandedByReveal, if_pos (.inl hopen)]
        omega
      · rw [Product.openBid_outbid_closed hopen, strandedByReveal,
          if_neg (not_or.mpr ⟨hopen, BitVec.not_lt.mpr hcovered⟩), if_pos hfirst]
        omega
  | outbid hcovered hnext hhigher =>
      have hamount := hrest hcovered
      have hhigher : product.highestBid.toNat < amount.toNat := hhigher
      refine ⟨rfl, ?_⟩
      rw [ether_singleton]
      by_cases hopen : product.status = .open
      · rw [Product.openBid_of_open hopen hnext, strandedByReveal, if_pos (.inl hopen)]
        have hnew := Product.openBid_outbid hopen hsender amount product.highestBid
        dsimp only at hnew ⊢
        omega
      · rw [Product.openBid_of_closed hopen, strandedByReveal,
          if_neg (not_or.mpr ⟨hopen, BitVec.not_lt.mpr hcovered⟩), if_neg hnext]
        have hnew := Product.openBid_outbid_closed hopen sender amount product.highestBid
        dsimp only at hnew ⊢
        omega
  | second hcovered hnext hhigher hsecond =>
      rw [hlower hnext hhigher]
      exact ⟨rfl, rfl⟩
  | lower hcovered hnext hhigher hsecond =>
      rw [hlower hnext hhigher]
      exact ⟨rfl, rfl⟩

theorem ether_refunds (receiver : Address) (refund : Uint) :
    ether (refunds receiver refund) = refund.toNat := by
  unfold refunds
  split
  · rw [ether_singleton]
  · rename_i hzero
    exact (Nat.eq_zero_of_not_pos hzero).symm

theorem revealBid_settles {sha3 : Bytes → Bytes32} {store store' : EcommerceStore}
    {call : CallInfo} {productId : Uint} {amountText secret : Bytes}
    (h : store.revealBid sha3 call productId amountText secret = .ok store') :
    Settles store store' (store.slot productId)
      (strandedByReveal (store.stores.get (store.slot productId))
        ((store.stores.get (store.slot productId)).bids.get
          (call.sender, sha3 (amountText ++ secret))) (stringToUint amountText)) := by
  obtain ⟨bidInfo, product, refund, paid, _, hbidInfo, hbidder, hhidden, hrevealed, balance,
    hbalance, rfl⟩ := revealBid_eq_ok h
  rw [← hbidInfo]
  generalize hkey : (call.sender, sha3 (amountText ++ secret)) = key at *
  obtain ⟨hbids, hopenBid⟩ := hrevealed.settles call.sender_ne
  rw [ether_append, ether_refunds] at hbalance
  refine .of_set _ rfl ?_
  dsimp only
  generalize store.stores.get (store.slot productId) = old at *
  have hset := Product.unrevealedBids_set old key { bidInfo with revealed := true }
  have hnew : Bid.unrevealed { bidInfo with revealed := true } = 0 := if_neg (by simp)
  have hvalue : bidInfo.unrevealed = bidInfo.value.toNat := if_pos ⟨hbidder, hhidden⟩
  rw [← hbidInfo, hnew, hvalue] at hset
  have howed : Product.owed { product with
      bids := product.bids.set key { bidInfo with revealed := true } } +
      bidInfo.value.toNat = old.unrevealedBids + product.openBid := by
    rw [hbids]
    change (old.bids.set key { bidInfo with revealed := true }).total
      (fun _ bid => bid.unrevealed) + product.openBid + bidInfo.value.toNat = _
    omega
  rw [show old.owed = old.unrevealedBids + old.openBid from rfl]
  omega

/-- The refund does not wrap: no balance could pay it. -/
theorem finalizeAuction_settles {store store' : EcommerceStore} {call : CallInfo}
    {productId : Uint} (hbalance : store.balance < 2 ^ 256)
    (h : store.finalizeAuction call productId = .ok store') :
    Settles store store' (store.slot productId) 0 := by
  obtain ⟨_, hopen, hfinalized⟩ := finalizeAuction_eq_ok h
  generalize hold : store.stores.get (store.slot productId) = old at *
  cases hfinalized with
  | unsold hnone =>
      refine .of_set { old with status := .unsold } rfl ?_
      rw [hold]
      change store.balance + (old.unrevealedBids + old.openBid) = store.balance +
        (old.unrevealedBids + Product.openBid { old with status := .unsold }) + 0
      rw [Product.openBid_of_first hnone, Product.openBid_finalized old (by decide)]
      rfl
  | sold balance refund hsold hrefund hpaid =>
      refine .of_set { old with status := .sold } rfl ?_
      have hhighest : old.secondHighestBid.toNat +
          (old.highestBid - old.secondHighestBid).toNat = old.highestBid.toNat := by
        rw [hrefund] at hpaid
        bv_omega
      rw [hold]
      change balance + (old.unrevealedBids + old.openBid) =
        store.balance + (old.unrevealedBids + Product.openBid { old with status := .sold }) + 0
      rw [Product.openBid_of_open hopen hsold, Product.openBid_finalized old (by decide)]
      rw [hrefund] at hpaid
      omega

theorem releaseAmountToSeller_settles {store store' : EcommerceStore} {call : CallInfo}
    {productId : Uint} (h : store.releaseAmountToSeller call productId = .ok store') :
    Settles store store' (store.slot productId) 0 := by
  obtain ⟨n, escrow, escrow', _, _, _, rfl⟩ := releaseAmountToSeller_eq_ok h
  exact .of_same _ rfl rfl

theorem refundAmountToBuyer_settles {store store' : EcommerceStore} {call : CallInfo}
    {productId : Uint} (h : store.refundAmountToBuyer call productId = .ok store') :
    Settles store store' (store.slot productId) 0 := by
  obtain ⟨n, escrow, escrow', _, _, _, rfl⟩ := refundAmountToBuyer_eq_ok h
  exact .of_same _ rfl rfl

end EcommerceStore

/-! Runs. -/

namespace Chain

/-- The ether that a call leaves in the contract for nobody. -/
def stranded (sha3 : Bytes → Bytes32) (store : EcommerceStore) (call : Call) : Nat :=
  let product := store.stores.get (slot store call)
  match call.function with
  | .addProductToStore .. => product.openBid
  | .revealBid _ amountText secret =>
      EcommerceStore.strandedByReveal product
        (product.bids.get (call.info.sender, sha3 (amountText ++ secret)))
        (EcommerceStore.stringToUint amountText)
  | _ => 0

theorem run_settles {sha3 : Bytes → Bytes32} {store store' : EcommerceStore} {call : Call}
    (hbalance : store.balance < 2 ^ 256) (h : run sha3 store call = .ok store') :
    store.Settles store' (slot store call) (stranded sha3 store call) := by
  unfold run at h
  unfold slot stranded
  cases hfunction : call.function with
  | addProductToStore name category imageLink descLink start finish price condition =>
      simp only [hfunction] at h
      simpa only [slot, hfunction] using EcommerceStore.addProductToStore_settles h
  | bid productId sealedBid =>
      simp only [hfunction] at h
      exact EcommerceStore.bid_settles h
  | revealBid productId amountText secret =>
      simp only [hfunction] at h
      simpa only [slot, hfunction] using EcommerceStore.revealBid_settles h
  | finalizeAuction productId =>
      simp only [hfunction] at h
      exact EcommerceStore.finalizeAuction_settles hbalance h
  | releaseAmountToSeller productId =>
      simp only [hfunction] at h
      exact EcommerceStore.releaseAmountToSeller_settles h
  | refundAmountToBuyer productId =>
      simp only [hfunction] at h
      exact EcommerceStore.refundAmountToBuyer_settles h

theorem step_settles {sha3 : Bytes → Bytes32} {chain chain' : Chain} {call : Call}
    (h : step sha3 chain call = some chain') :
    chain.store.Settles chain'.store (slot chain.store call)
      (stranded sha3 chain.store call) := by
  obtain ⟨_, hbalance, hrun, _⟩ := step_eq_some h
  exact run_settles (by omega) hrun

end Chain

/-- The condition under which a call strands nothing: a bid on a product that is not
open is revealed only when it does not become the highest, and no product with a bid
is written over. -/
def Harmless (sha3 : Bytes → Bytes32) (chain : Chain) (call : Call) : Prop :=
  let store := chain.store
  match call.function with
  | .addProductToStore .. =>
      let product := store.stores.get (call.info.sender, store.productIndex + 1)
      product.status ≠ .open ∨ product.highestBidder = 0 ∨ product.highestBid = 0
  | .revealBid productId amountText secret =>
      let product := store.stores.get (store.slot productId)
      let bidInfo := product.bids.get (call.info.sender, sha3 (amountText ++ secret))
      let amount := EcommerceStore.stringToUint amountText
      product.status = .open ∨ bidInfo.value < amount ∨
        if product.highestBidder = 0 then amount = 0 else amount ≤ product.highestBid
  | _ => True

theorem Product.openBid_eq_zero (product : Product) : product.openBid = 0 ↔
    product.status ≠ .open ∨ product.highestBidder = 0 ∨ product.highestBid = 0 := by
  unfold openBid
  split
  · rename_i h
    rw [or_iff_right (not_not.mpr h.1), or_iff_right h.2, BitVec.toNat_eq]
    rfl
  · rename_i h
    simp only [true_iff]
    rw [not_and_or, not_not] at h
    exact h.imp_right .inl

theorem strandedByReveal_eq_zero {product : Product} {bidInfo : Bid} {amount : Uint} :
    EcommerceStore.strandedByReveal product bidInfo amount = 0 ↔
      product.status = .open ∨ bidInfo.value < amount ∨
        if product.highestBidder = 0 then amount = 0 else amount ≤ product.highestBid := by
  unfold EcommerceStore.strandedByReveal
  rw [← or_assoc]
  by_cases hearly : product.status = .open ∨ bidInfo.value < amount
  · simp [hearly]
  · rw [if_neg hearly, or_iff_right hearly]
    split
    · simp [BitVec.toNat_eq]
    · rw [Nat.sub_eq_zero_iff_le]
      rfl

theorem harmless_iff {sha3 : Bytes → Bytes32} {chain : Chain} {call : Call} :
    Harmless sha3 chain call ↔ Chain.stranded sha3 chain.store call = 0 := by
  unfold Harmless Chain.stranded Chain.slot
  cases hfunction : call.function with
  | addProductToStore =>
      simp only
      exact (Product.openBid_eq_zero _).symm
  | bid => simp
  | revealBid =>
      simp only
      exact strandedByReveal_eq_zero.symm
  | finalizeAuction => simp
  | releaseAmountToSeller => simp
  | refundAmountToBuyer => simp

section Solvency

open Finset

variable {sha3 : Bytes → Bytes32}

/-- The ether that the calls before `k` on a product brought in. -/
def depositedFor (run : ChainRun sha3) (slot : Address × Uint) (k : Nat) : Nat :=
  ∑ j ∈ range k, if Chain.slot (run.state j).store (run.act j) = slot then
    (run.state (j + 1)).store.balance - (run.state j).store.balance else 0

def paidFor (run : ChainRun sha3) (slot : Address × Uint) (k : Nat) : Nat :=
  ∑ j ∈ range k, if Chain.slot (run.state j).store (run.act j) = slot then
    (run.state j).store.balance - (run.state (j + 1)).store.balance else 0

def Solvent (run : ChainRun sha3) (k : Nat) : Prop :=
  (run.state k).store.balance = (run.state k).store.owed ∧
    ∀ slot, paidFor run slot k ≤ depositedFor run slot k

theorem balance_eq (run : ChainRun sha3) : ∀ k, k ≤ run.length →
    (run.state k).store.balance = (run.state k).store.owed +
      ∑ j ∈ range k, Chain.stranded sha3 (run.state j).store (run.act j) := by
  refine run.induct ?_ ?_
  · rw [run.starts]
    rfl
  · intro k hk ih
    have hsettles := (Chain.step_settles (run.steps k hk)).total
    rw [sum_range_succ]
    omega

/-- What was paid for a product and what is owed for it was deposited for it. -/
theorem paidFor_add_owed_le (run : ChainRun sha3) (slot : Address × Uint) :
    ∀ k, k ≤ run.length → paidFor run slot k + ((run.state k).store.stores.get slot).owed ≤
      depositedFor run slot k := by
  refine run.induct ?_ ?_
  · rw [run.starts]
    exact Nat.le_refl _
  · intro k hk ih
    have hsettles := Chain.step_settles (run.steps k hk)
    unfold paidFor depositedFor at ih ⊢
    rw [sum_range_succ, sum_range_succ]
    by_cases hslot : Chain.slot (run.state k).store (run.act k) = slot
    · have hown := hsettles.own
      rw [if_pos hslot, if_pos hslot]
      rw [hslot] at hown
      omega
    · rw [if_neg hslot, if_neg hslot, hsettles.others slot (Ne.symm hslot)]
      exact ih

/-- The contract is solvent exactly in the runs whose calls strand no ether. -/
theorem solvency (run : ChainRun sha3) :
    (∀ k, k ≤ run.length → Solvent run k) ↔ run.AllSteps (Harmless sha3) := by
  constructor
  · intro hsolvent k hk
    rw [harmless_iff]
    have hlast := balance_eq run (k + 1) hk
    rw [(hsolvent (k + 1) hk).1, sum_range_succ] at hlast
    omega
  · intro hharmless k hk
    refine ⟨?_, ?_⟩
    · have hzero : ∑ j ∈ range k, Chain.stranded sha3 (run.state j).store (run.act j) = 0 := by
        refine sum_eq_zero ?_
        intro j hj
        exact harmless_iff.mp (hharmless j (Nat.lt_of_lt_of_le (mem_range.mp hj) hk))
      rw [balance_eq run k hk, hzero, Nat.add_zero]
    · intro slot
      exact Nat.le_trans (Nat.le_add_right _ _) (paidFor_add_owed_le run slot k hk)

end Solvency

section LateReveal

/-! A bid is revealed after the auction ended without a reveal. -/

def packed (bytes : Bytes) : Bytes32 :=
  bytes.foldl (fun word b => 256 * word + BitVec.ofNat 256 b.toNat) 0

theorem one_ne : (1 : Address) ≠ 0 := by decide

theorem two_ne : (2 : Address) ≠ 0 := by decide

theorem three_ne : (3 : Address) ≠ 0 := by decide

theorem nine_ne : (9 : Address) ≠ 0 := by decide

instance : Inhabited Call :=
  ⟨⟨⟨1, 0, 0, fun _ => true, one_ne⟩, .finalizeAuction 0⟩⟩

def lateReveal : List Call :=
  [⟨⟨1, 0, 10, fun _ => true, one_ne⟩, .addProductToStore [] [] [] [] 10 20 5 0⟩,
    ⟨⟨2, 30, 15, fun _ => true, two_ne⟩, .bid 1 (packed "20secret".toUTF8.toList)⟩,
    ⟨⟨3, 0, 21, fun _ => true, three_ne⟩, .finalizeAuction 1⟩,
    ⟨⟨2, 0, 22, fun _ => true, two_ne⟩,
      .revealBid 1 "20".toUTF8.toList "secret".toUTF8.toList⟩]

theorem insolvent : ¬ ∀ run : ChainRun packed, ∀ k, k ≤ run.length → Solvent run k := by
  intro h
  have hrun : (Lib.exec (Chain.step packed) Chain.create lateReveal).map
      (fun chain => (chain.store.balance, chain.store.owed)) = some (20, 0) := by
    decide +kernel
  obtain ⟨run, _, hbalance⟩ := Lib.Run.exists_of_exec hrun
  have hsolvent := (h run run.length (Nat.le_refl _)).1
  obtain ⟨hfunds, howed⟩ := Prod.mk.inj hbalance
  rw [hfunds, howed] at hsolvent
  exact absurd hsolvent (by decide)

end LateReveal

end BlockchainTutorial.Auction
