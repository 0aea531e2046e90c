import BlockchainTutorial.Auction.Prices

namespace BlockchainTutorial.Auction

/-! Accounts that refuse ether. The store pays the old highest bidder within the call of
the new one, and the winner within the call that finalizes the auction. -/

namespace EcommerceStore

/-- A call that brings no ether, on a product, where the accounts of `refuses` take
none. The first transfer of `revealBid` and that of `finalizeAuction` go to the highest
bidder, the other one of `revealBid` to the sender. -/
def callOf (store : EcommerceStore) (productId : Uint) (refuses : Address → Bool)
    (sender : Address) (sender_ne : sender ≠ 0) (now : Uint) : CallInfo where
  sender
  value := 0
  now
  accepts n :=
    if n = 0 then !refuses (store.stores.get (store.slot productId)).highestBidder
    else !refuses sender
  sender_ne

/-- The sender holds a bid that it can reveal. -/
structure Revealable (sha3 : Bytes → Bytes32) (store : EcommerceStore) (productId : Uint)
    (sender : Address) (now : Uint) (amountText secret : Bytes) : Prop where
  ended : (store.stores.get (store.slot productId)).auctionEndTime ≤ now
  bidder : ((store.stores.get (store.slot productId)).bids.get
    (sender, sha3 (amountText ++ secret))).bidder ≠ 0
  hidden : ((store.stores.get (store.slot productId)).bids.get
    (sender, sha3 (amountText ++ secret))).revealed = false

/-- The amount is covered and above the highest bid of the product. -/
def Outbids (product : Product) (bidInfo : Bid) (amount : Uint) : Prop :=
  product.highestBidder ≠ 0 ∧ amount ≤ bidInfo.value ∧ product.highestBid < amount

section RevealBid

variable {sha3 : Bytes → Bytes32} {store : EcommerceStore} {call : CallInfo}
  {productId : Uint} {amountText secret : Bytes}

theorem exists_refund {refund : Uint} (hfunds : refund.toNat ≤ store.balance)
    (haccepts : call.accepts 1 = true) :
    ∃ store', (if 0 < refund then store.transfer call 1 call.sender refund else .ok store) =
      .ok store' := by
  split
  · exact ⟨_, if_pos ⟨hfunds, haccepts⟩⟩
  · exact ⟨_, rfl⟩

variable (store call) in
theorem revealed_of_not_outbids {product : Product} {bidInfo : Bid} {amount : Uint}
    (h : ¬ Outbids product bidInfo amount) :
    ∃ product' refund, store.revealed call product bidInfo amount =
      .ok (store, product', refund) ∧ refund.toNat ≤ bidInfo.value.toNat := by
  unfold revealed
  by_cases hshort : bidInfo.value < amount
  · rw [if_pos hshort]
    exact ⟨_, _, rfl, Nat.le_refl _⟩
  · have hcovered := BitVec.not_lt.mp hshort
    rw [if_neg hshort]
    by_cases hfirst : product.highestBidder = 0
    · rw [if_pos hfirst]
      have hle : amount.toNat ≤ bidInfo.value.toNat := hcovered
      exact ⟨_, _, rfl, by bv_omega⟩
    · have hlower : ¬ product.highestBid < amount :=
        fun hhigher => h ⟨hfirst, hcovered, hhigher⟩
      rw [if_neg hfirst, if_neg hlower]
      split
      · exact ⟨_, _, rfl, Nat.le_refl _⟩
      · exact ⟨_, _, rfl, Nat.le_refl _⟩

theorem revealed_of_outbids {product : Product} {bidInfo : Bid} {amount : Uint}
    (h : Outbids product bidInfo amount) :
    store.revealed call product bidInfo amount =
      store.transfer call 0 product.highestBidder product.highestBid >>= fun store =>
        .ok (store, { product with
          secondHighestBid := product.highestBid
          highestBid := amount
          highestBidder := call.sender }, bidInfo.value - amount) := by
  obtain ⟨hnext, hcovered, hhigher⟩ := h
  unfold revealed
  rw [if_neg (BitVec.not_lt.mpr hcovered), if_neg hnext, if_pos hhigher]

/-- With enough ether for the bid, a reveal of a sender that takes ether fails only when
it outbids an account that does not. -/
theorem revealBid_isOk_iff (hvalue : call.value = 0)
    (h : Revealable sha3 store productId call.sender call.now amountText secret)
    (haccepts : call.accepts 1 = true) {product : Product} {bidInfo : Bid}
    (hproduct : store.stores.get (store.slot productId) = product)
    (hbidInfo : product.bids.get (call.sender, sha3 (amountText ++ secret)) = bidInfo)
    (hfunds : bidInfo.value.toNat ≤ store.balance) :
    (∃ store', store.revealBid sha3 call productId amountText secret = .ok store') ↔
      (Outbids product bidInfo (stringToUint amountText) → call.accepts 0 = true) := by
  obtain ⟨hended, hbidder, hhidden⟩ := h
  have hpositive : 0 < bidInfo.bidder := by
    subst hproduct hbidInfo
    exact (BitVec.pos_iff_ne_zero _).mpr hbidder
  rw [hproduct, hbidInfo] at hhidden
  unfold revealBid
  simp only [exists_require_bind, decide_eq_true_eq, hvalue, hproduct, hbidInfo, hpositive,
    hhidden, true_and]
  rw [hproduct] at hended
  rw [and_iff_right hended]
  generalize stringToUint amountText = amount
  by_cases houtbids : Outbids product bidInfo amount
  · have hcovered : amount.toNat ≤ bidInfo.value.toNat := houtbids.2.1
    have hhigher : product.highestBid.toNat < amount.toNat := houtbids.2.2
    rw [revealed_of_outbids houtbids, bind_assoc, exists_transfer_bind]
    refine ⟨fun h _ => h.2.1, fun h => ⟨by omega, h houtbids, ?_⟩⟩
    refine exists_refund ?_ haccepts
    dsimp only [setProduct]
    bv_omega
  · obtain ⟨product', refund, hrevealed, hrefund⟩ :=
      revealed_of_not_outbids store call houtbids
    rw [hrevealed]
    refine ⟨fun _ h => absurd h houtbids, fun _ => ?_⟩
    exact exists_refund (Nat.le_trans hrefund hfunds) haccepts

end RevealBid

/-! Two calls that differ in the accounts that refuse ether. -/

section Independence

variable (sha3 : Bytes → Bytes32) (store : EcommerceStore) (productId : Uint)
  (sender : Address) (sender_ne : sender ≠ 0) (now : Uint)

/-- Whether the sender, who takes ether, can reveal does not depend on who else does. -/
def RevealIndependent (amountText secret : Bytes) : Prop :=
  ∀ refuses refuses' : Address → Bool, refuses sender = false → refuses' sender = false →
    ((∃ store', store.revealBid sha3 (store.callOf productId refuses sender sender_ne now)
        productId amountText secret = .ok store') ↔
      ∃ store', store.revealBid sha3 (store.callOf productId refuses' sender sender_ne now)
        productId amountText secret = .ok store')

/-- Whether the sender can finalize does not depend on whether the highest bidder takes
ether. -/
def FinalizeIndependent : Prop :=
  ∀ refuses refuses' : Address → Bool,
    (∀ account, account ≠ (store.stores.get (store.slot productId)).highestBidder →
      refuses account = refuses' account) →
    ((∃ store', store.finalizeAuction (store.callOf productId refuses sender sender_ne now)
        productId = .ok store') ↔
      ∃ store', store.finalizeAuction (store.callOf productId refuses' sender sender_ne now)
        productId = .ok store')

variable {sha3 store productId sender now}

theorem revealIndependent_iff {amountText secret : Bytes} {product : Product} {bidInfo : Bid}
    (h : Revealable sha3 store productId sender now amountText secret)
    (hproduct : store.stores.get (store.slot productId) = product)
    (hbidInfo : product.bids.get (sender, sha3 (amountText ++ secret)) = bidInfo)
    (hfunds : bidInfo.value.toNat ≤ store.balance) :
    RevealIndependent sha3 store productId sender sender_ne now amountText secret ↔
      ¬ (Outbids product bidInfo (stringToUint amountText) ∧ product.highestBidder ≠ sender) := by
  have hok : ∀ refuses : Address → Bool, refuses sender = false →
      ((∃ store', store.revealBid sha3 (store.callOf productId refuses sender sender_ne now)
          productId amountText secret = .ok store') ↔
        (Outbids product bidInfo (stringToUint amountText) →
          refuses product.highestBidder = false)) := by
    intro refuses htakes
    have haccepts : (store.callOf productId refuses sender sender_ne now).accepts 1 = true := by
      simp [callOf, htakes]
    have hfirst : (store.callOf productId refuses sender sender_ne now).accepts 0 = true ↔
        refuses product.highestBidder = false := by
      simp [callOf, hproduct]
    rw [revealBid_isOk_iff rfl h haccepts hproduct hbidInfo hfunds, hfirst]
  constructor
  · rintro hsame ⟨houtbids, hother⟩
    have hboth := hsame (fun _ => false) (fun account => account = product.highestBidder) rfl
      (decide_eq_false hother.symm)
    rw [hok _ rfl, hok _ (decide_eq_false hother.symm)] at hboth
    have hrefused := hboth.mp (fun _ => rfl) houtbids
    exact of_decide_eq_false hrefused rfl
  · intro hfree refuses refuses' htakes htakes'
    have hgoes : ∀ refuses : Address → Bool, refuses sender = false →
        Outbids product bidInfo (stringToUint amountText) →
          refuses product.highestBidder = false := by
      intro refuses htakes houtbids
      have hsender : product.highestBidder = sender := by
        by_contra hother
        exact hfree ⟨houtbids, hother⟩
      rw [hsender]
      exact htakes
    rw [hok _ htakes, hok _ htakes']
    exact ⟨fun _ => hgoes refuses' htakes', fun _ => hgoes refuses htakes⟩

theorem finalizeIndependent_iff {product : Product}
    (hproduct : store.stores.get (store.slot productId) = product)
    (hseller : sender ≠ store.productIdInStore.get productId)
    (hbuyer : sender ≠ product.highestBidder) (hbalance : store.balance < 2 ^ 256)
    (howed : product.openBid ≤ store.balance) :
    FinalizeIndependent store productId sender sender_ne now ↔
      ¬ (product.auctionEndTime < now ∧ product.status = .open ∧ product.highestBidder ≠ 0 ∧
        product.secondHighestBid ≤ product.highestBid) := by
  have hok : ∀ refuses : Address → Bool,
      ((∃ store', store.finalizeAuction (store.callOf productId refuses sender sender_ne now)
          productId = .ok store') ↔
        (product.auctionEndTime < now ∧ product.status = .open) ∧
          (product.highestBidder = 0 ∨
            (product.highestBid - product.secondHighestBid).toNat +
                product.secondHighestBid.toNat ≤ store.balance ∧
              refuses product.highestBidder = false)) := by
    intro refuses
    have hfirst : (store.callOf productId refuses sender sender_ne now).accepts 0 = true ↔
        refuses product.highestBidder = false := by
      simp [callOf, hproduct]
    rw [finalizeAuction_isOk_iff hproduct, hfirst]
    refine and_congr_left fun _ => ⟨fun hcall => ?_, fun hcall => ?_⟩
    · rw [← hproduct]
      exact ⟨hcall.ended, hcall.opened⟩
    · subst hproduct
      exact ⟨rfl, hcall.1, hcall.2, hseller, hbuyer⟩
  constructor
  · rintro hsame ⟨hended, hopen, hbidder, hprices⟩
    have hfunds : (product.highestBid - product.secondHighestBid).toNat +
        product.secondHighestBid.toNat ≤ store.balance := by
      rw [Product.openBid_of_open hopen hbidder] at howed
      have hle : product.secondHighestBid.toNat ≤ product.highestBid.toNat := hprices
      bv_omega
    have hboth := hsame (fun _ => false) (fun account => account = product.highestBidder) (by
      intro account hother
      rw [hproduct] at hother
      exact (decide_eq_false hother).symm)
    rw [hok, hok] at hboth
    obtain ⟨_, hnone | ⟨_, hrefused⟩⟩ := hboth.mp ⟨⟨hended, hopen⟩, .inr ⟨hfunds, rfl⟩⟩
    · exact hbidder hnone
    · exact of_decide_eq_false hrefused rfl
  · intro hfree refuses refuses' _
    rw [hok, hok]
    refine and_congr_right fun hcalled => ?_
    obtain ⟨hended, hopen⟩ := hcalled
    by_cases hbidder : product.highestBidder = 0
    · simp only [hbidder, true_or]
    · have hprices : product.highestBid < product.secondHighestBid :=
        BitVec.not_le.mp fun hle => hfree ⟨hended, hopen, hbidder, hle⟩
      have hwraps := Product.refund_wraps hprices
      have hshort : ¬ (product.highestBid - product.secondHighestBid).toNat +
          product.secondHighestBid.toNat ≤ store.balance := by omega
      simp only [hshort, false_and]

end Independence

end EcommerceStore

open EcommerceStore in
/-- No account that refuses ether stops another one's reveal, or a third party's
settlement. -/
structure Unblockable (sha3 : Bytes → Bytes32) (store : EcommerceStore) : Prop where
  reveals : ∀ productId sender sender_ne now amountText secret,
    Revealable sha3 store productId sender now amountText secret →
    RevealIndependent sha3 store productId sender sender_ne now amountText secret
  finalizes : ∀ productId sender sender_ne now,
    sender ≠ store.productIdInStore.get productId →
    sender ≠ (store.stores.get (store.slot productId)).highestBidder →
    FinalizeIndependent store productId sender sender_ne now

theorem Chain.Ran.balance_le {sha3 : Bytes → Bytes32} {store store' : EcommerceStore}
    {info : CallInfo} {function : Function} (h : Chain.Ran sha3 store info function store') :
    store'.balance ≤ store.balance + info.value.toNat := by
  cases h with
  | addProductToStore => exact Nat.le_add_right _ _
  | bid productId sealedBid _ hbids =>
      rw [hbids.eq]
  | revealBid productId amountText secret _ bidInfo product' refund paid hreveals =>
      obtain ⟨balance, hbalance, heq⟩ := hreveals.eq
      rw [heq]
      dsimp only
      omega
  | finalizeAuction productId _ hended hopen hfinalized =>
      cases hfinalized with
      | unsold => exact Nat.le_add_right _ _
      | sold balance refund hsold hrefund hbalance =>
          dsimp only
          omega
  | releaseAmountToSeller => exact Nat.le_add_right _ _
  | refundAmountToBuyer => exact Nat.le_add_right _ _

section Runs

open EcommerceStore

variable {sha3 : Bytes → Bytes32} (run : ChainRun sha3)

theorem balance_lt : ∀ k, k ≤ run.length → (run.state k).store.balance < 2 ^ 256 := by
  refine run.induct ?_ ?_
  · rw [run.starts]
    decide
  · intro k hk _
    have hle := (Chain.step_ran (run.steps k hk)).balance_le
    have hlt := (Chain.step_eq_some (run.steps k hk)).2.1
    omega

/-- The value of a bid that can be revealed is there. -/
theorem value_le_balance {k : Nat} (hk : k ≤ run.length) {slot : Address × Uint}
    {key : Address × Bytes32}
    (hbidder : (((run.state k).store.stores.get slot).bids.get key).bidder ≠ 0)
    (hhidden : (((run.state k).store.stores.get slot).bids.get key).revealed = false) :
    (((run.state k).store.stores.get slot).bids.get key).value.toNat ≤
      (run.state k).store.balance := by
  have howed := owed_le_balance run hk slot
  have hbid := Lib.Mapping.le_total (fun _ bid => bid.unrevealed)
    ((run.state k).store.stores.get slot).bids key rfl
  have hvalue : (((run.state k).store.stores.get slot).bids.get key).unrevealed =
      (((run.state k).store.stores.get slot).bids.get key).value.toNat :=
    if_pos ⟨hbidder, hhidden⟩
  change _ ≤ Product.unrevealedBids _ at hbid
  rw [Product.owed] at howed
  omega

/-- Who can block whom. A bidder that refuses ether blocks the reveal that takes the lead
from it, and the settlement of an auction that it has won. -/
theorem refusal_blocks_iff {k : Nat} (hk : k ≤ run.length) {store : EcommerceStore}
    (hstore : (run.state k).store = store) (productId : Uint) {product : Product}
    (hproduct : store.stores.get (store.slot productId) = product) :
    (∀ sender sender_ne now amountText secret,
      Revealable sha3 store productId sender now amountText secret →
      (RevealIndependent sha3 store productId sender sender_ne now amountText secret ↔
        ¬ (Outbids product (product.bids.get (sender, sha3 (amountText ++ secret)))
            (stringToUint amountText) ∧ product.highestBidder ≠ sender))) ∧
    ∀ sender sender_ne now, sender ≠ store.productIdInStore.get productId →
      sender ≠ product.highestBidder →
      (FinalizeIndependent store productId sender sender_ne now ↔
        ¬ (product.auctionEndTime < now ∧ product.status = .open ∧
          product.highestBidder ≠ 0 ∧ product.secondHighestBid ≤ product.highestBid)) := by
  subst hstore
  constructor
  · intro sender sender_ne now amountText secret hrevealable
    refine revealIndependent_iff sender_ne hrevealable hproduct rfl ?_
    rw [← hproduct]
    exact value_le_balance run hk hrevealable.bidder hrevealable.hidden
  · intro sender sender_ne now hseller hbuyer
    refine finalizeIndependent_iff sender_ne hproduct hseller hbuyer (balance_lt run k hk) ?_
    have howed := owed_le_balance run hk ((run.state k).store.slot productId)
    rw [hproduct, Product.owed] at howed
    omega

end Runs

section Displaced

open EcommerceStore

/-! Account 2 leads with 20, and account 3 holds a bid of 25. -/

def displacedActs : List Call :=
  [⟨⟨1, 0, 10, fun _ => true, one_ne⟩, .addProductToStore [] [] [] [] 10 20 5 0⟩,
    ⟨⟨2, 30, 15, fun _ => true, two_ne⟩, .bid 1 (packed "20a".toUTF8.toList)⟩,
    ⟨⟨3, 30, 16, fun _ => true, three_ne⟩, .bid 1 (packed "25b".toUTF8.toList)⟩,
    ⟨⟨2, 0, 21, fun _ => true, two_ne⟩, .revealBid 1 "20".toUTF8.toList "a".toUTF8.toList⟩]

theorem displacedActs_exec :
    (Lib.exec (Chain.step packed) Chain.create displacedActs).isSome := by
  decide +kernel

def displacedRun : ChainRun packed := .ofActions displacedActs displacedActs_exec

theorem displaced_revealable : Revealable packed (displacedRun.state 4).store 1 3 22
    "25".toUTF8.toList "b".toUTF8.toList :=
  ⟨by decide +kernel, by decide +kernel, by decide +kernel⟩

theorem displaced_outbids : Outbids ((displacedRun.state 4).store.stores.get
      ((displacedRun.state 4).store.slot 1))
    (((displacedRun.state 4).store.stores.get ((displacedRun.state 4).store.slot 1)).bids.get
      (3, packed ("25".toUTF8.toList ++ "b".toUTF8.toList)))
    (stringToUint "25".toUTF8.toList) :=
  ⟨by decide +kernel, by decide +kernel, by decide +kernel⟩

theorem displaced_other : ((displacedRun.state 4).store.stores.get
    ((displacedRun.state 4).store.slot 1)).highestBidder ≠ 3 := by
  decide +kernel

/-- Account 3 cannot reveal while account 2 refuses ether, nor can account 9 finalize. -/
theorem refusal_blocks_displaced :
    ¬ RevealIndependent packed (displacedRun.state 4).store 1 3 three_ne 22
        "25".toUTF8.toList "b".toUTF8.toList ∧
      ¬ FinalizeIndependent (displacedRun.state 4).store 1 9 nine_ne 22 := by
  have hblocks := refusal_blocks_iff displacedRun (Nat.le_refl 4) rfl 1 rfl
  constructor
  · rw [hblocks.1 3 three_ne 22 _ _ displaced_revealable]
    exact not_not.mpr ⟨displaced_outbids, displaced_other⟩
  · rw [hblocks.2 9 nine_ne 22 (by decide +kernel) (by decide +kernel)]
    exact not_not.mpr ⟨by decide +kernel, by decide +kernel, by decide +kernel,
      by decide +kernel⟩

theorem blockable : ¬ ∀ run : ChainRun packed, ∀ k, k ≤ run.length →
    Unblockable packed (run.state k).store := by
  intro h
  have hindependent := (h displacedRun 4 (Nat.le_refl 4)).reveals 1 3 three_ne 22 _ _
    displaced_revealable
  rw [revealIndependent_iff three_ne displaced_revealable rfl rfl
    (value_le_balance displacedRun (Nat.le_refl 4) displaced_revealable.bidder
      displaced_revealable.hidden)] at hindependent
  exact hindependent ⟨displaced_outbids, displaced_other⟩

end Displaced

end BlockchainTutorial.Auction
