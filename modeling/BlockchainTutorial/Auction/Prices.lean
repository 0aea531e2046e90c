import BlockchainTutorial.Auction.Solvency

namespace BlockchainTutorial.Auction

/-! The order of the prices. The first bid that is revealed sets the second price to
the start price, whatever its own amount. -/

namespace Product

def PricesOrdered (product : Product) : Prop :=
  product.highestBidder ≠ 0 →
    product.startPrice ≤ product.secondHighestBid ∧
      product.secondHighestBid ≤ product.highestBid

/-- The call reveals the first bid of the product, with an amount below the start
price. -/
def LowFirst (product : Product) (bidInfo : Bid) (amount : Uint) : Prop :=
  product.highestBidder = 0 ∧ amount ≤ bidInfo.value ∧ amount < product.startPrice

theorem PricesOrdered.refund {product : Product} (h : product.PricesOrdered)
    (hbidder : product.highestBidder ≠ 0) :
    (product.highestBid - product.secondHighestBid).toNat + product.secondHighestBid.toNat =
      product.highestBid.toNat := by
  have hle : product.secondHighestBid.toNat ≤ product.highestBid.toNat := (h hbidder).2
  bv_omega

/-- With the second price above the highest bid the refund is more than any balance
less the second price. -/
theorem refund_wraps {product : Product}
    (h : product.highestBid < product.secondHighestBid) :
    2 ^ 256 ≤ (product.highestBid - product.secondHighestBid).toNat +
      product.secondHighestBid.toNat := by
  have hlt : product.highestBid.toNat < product.secondHighestBid.toNat := h
  bv_omega

end Product

namespace EcommerceStore

theorem Revealed.pricesOrdered_iff {sender : Address} {product product' : Product}
    {bidInfo : Bid} {amount refund : Uint} {paid : List (Address × Uint)}
    (h : Revealed sender product bidInfo amount product' refund paid) (hsender : sender ≠ 0)
    (hordered : product.PricesOrdered) :
    product'.PricesOrdered ↔ ¬ product.LowFirst bidInfo amount := by
  cases h with
  | short hshort =>
      refine ⟨fun _ hlow => ?_, fun _ => hordered⟩
      exact absurd hshort (BitVec.not_lt.mpr hlow.2.1)
  | first hcovered hfirst =>
      constructor
      · intro hprices hlow
        exact absurd hlow.2.2 (BitVec.not_lt.mpr (hprices hsender).2)
      · intro hlow _
        refine ⟨BitVec.le_refl _, BitVec.not_lt.mp fun hlt => ?_⟩
        exact hlow ⟨hfirst, hcovered, hlt⟩
  | outbid hcovered hnext hhigher =>
      refine ⟨fun _ hlow => absurd hlow.1 hnext, fun _ _ => ⟨?_, ?_⟩⟩
      · exact BitVec.le_trans (hordered hnext).1 (hordered hnext).2
      · exact BitVec.le_of_lt hhigher
  | second hcovered hnext hhigher hsecond =>
      refine ⟨fun _ hlow => absurd hlow.1 hnext, fun _ _ => ⟨?_, hhigher⟩⟩
      exact BitVec.le_trans (hordered hnext).1 (BitVec.le_of_lt hsecond)
  | lower hcovered hnext hhigher hsecond =>
      exact ⟨fun _ hlow => hnext hlow.1, fun _ => hordered⟩

/-! When `finalizeAuction` goes through. -/

structure Finalizable (store : EcommerceStore) (call : CallInfo) (productId : Uint) : Prop where
  value : call.value = 0
  ended : (store.stores.get (store.slot productId)).auctionEndTime < call.now
  opened : (store.stores.get (store.slot productId)).status = .open
  seller : call.sender ≠ store.productIdInStore.get productId
  buyer : call.sender ≠ (store.stores.get (store.slot productId)).highestBidder

theorem exists_require_bind {α : Type} {condition : Bool} {message : String}
    {g : Unit → Except String α} :
    (∃ r, require condition message >>= g = .ok r) ↔ condition = true ∧ ∃ r, g () = .ok r := by
  simp only [require_bind_eq_ok, exists_and_left]

theorem exists_transfer_bind {store : EcommerceStore} {call : CallInfo} {n : Nat}
    {receiver : Address} {amount : Uint} {α : Type} {g : EcommerceStore → Except String α} :
    (∃ r, store.transfer call n receiver amount >>= g = .ok r) ↔
      amount.toNat ≤ store.balance ∧ call.accepts n = true ∧
        ∃ r, g { store with
          balance := store.balance - amount.toNat
          transfers := store.transfers ++ [(receiver, amount)] } = .ok r := by
  unfold transfer
  split
  · next haccepted => exact ⟨fun h => ⟨haccepted.1, haccepted.2, h⟩, fun h => h.2.2⟩
  · next hrefused =>
      constructor
      · rintro ⟨r, h⟩
        cases h
      · rintro ⟨hfunds, haccepts, _⟩
        exact absurd ⟨hfunds, haccepts⟩ hrefused

theorem finalizeAuction_isOk_iff {store : EcommerceStore} {call : CallInfo}
    {productId : Uint} {product : Product}
    (hproduct : store.stores.get (store.slot productId) = product) :
    (∃ store', store.finalizeAuction call productId = .ok store') ↔
      store.Finalizable call productId ∧ (product.highestBidder = 0 ∨
        (product.highestBid - product.secondHighestBid).toNat +
            product.secondHighestBid.toNat ≤ store.balance ∧
          call.accepts 0 = true) := by
  subst hproduct
  have hcalled : store.Finalizable call productId ↔ call.value = 0 ∧
      (store.stores.get (store.slot productId)).auctionEndTime < call.now ∧
      (store.stores.get (store.slot productId)).status = .open ∧
      call.sender ≠ store.productIdInStore.get productId ∧
      call.sender ≠ (store.stores.get (store.slot productId)).highestBidder :=
    ⟨fun h => ⟨h.value, h.ended, h.opened, h.seller, h.buyer⟩,
      fun ⟨value, ended, opened, seller, buyer⟩ => ⟨value, ended, opened, seller, buyer⟩⟩
  unfold finalizeAuction
  simp only [exists_require_bind, decide_eq_true_eq, hcalled, and_assoc]
  refine and_congr_right fun _ => and_congr_right fun _ => and_congr_right fun _ =>
    and_congr_right fun _ => and_congr_right fun _ => ?_
  by_cases hnone : (store.stores.get (store.slot productId)).highestBidder = 0
  · simp only [hnone, if_true, true_or, iff_true]
    exact ⟨_, rfl⟩
  · simp only [hnone, if_false, false_or, exists_require_bind, decide_eq_true_eq]
    rw [exists_transfer_bind]
    dsimp only
    constructor
    · rintro ⟨hsecond, hrefund, haccepts, _⟩
      exact ⟨by omega, haccepts⟩
    · rintro ⟨hfunds, haccepts⟩
      exact ⟨by omega, by omega, haccepts, _, rfl⟩

/-- An auction whose prices are out of order is never settled. -/
theorem finalizeAuction_disordered {store store' : EcommerceStore} {call : CallInfo}
    {productId : Uint} {product : Product} (hbalance : store.balance < 2 ^ 256)
    (hproduct : store.stores.get (store.slot productId) = product)
    (hbidder : product.highestBidder ≠ 0)
    (hprices : product.highestBid < product.secondHighestBid) :
    store.finalizeAuction call productId ≠ .ok store' := by
  intro h
  obtain ⟨_, hnone | ⟨hfunds, _⟩⟩ := (finalizeAuction_isOk_iff hproduct).mp ⟨store', h⟩
  · exact hbidder hnone
  · have := Product.refund_wraps hprices
    omega

end EcommerceStore

/-- In every auction with a highest bidder the prices are in order, so that its refund
does not wrap, and a caller who may finalize an auction is stopped by no amount. -/
structure EcommerceStore.Settleable (store : EcommerceStore) : Prop where
  ordered : ∀ slot, (store.stores.get slot).PricesOrdered
  refund : ∀ slot, (store.stores.get slot).highestBidder ≠ 0 →
    ((store.stores.get slot).highestBid - (store.stores.get slot).secondHighestBid).toNat +
        (store.stores.get slot).secondHighestBid.toNat =
      (store.stores.get slot).highestBid.toNat
  finalizes : ∀ call productId, store.Finalizable call productId → call.accepts 0 = true →
    ∃ store', store.finalizeAuction call productId = .ok store'

namespace Chain

variable {sha3 : Bytes → Bytes32}

/-- The call is the first reveal on its product, of an amount below the start price. -/
def lowFirst (sha3 : Bytes → Bytes32) (chain : Chain) (call : Call) : Prop :=
  match call.function with
  | .revealBid productId amountText secret =>
      let product := chain.store.stores.get (chain.store.slot productId)
      product.LowFirst (product.bids.get (call.info.sender, sha3 (amountText ++ secret)))
        (EcommerceStore.stringToUint amountText)
  | _ => False

theorem Moves.pricesOrdered_iff {info : CallInfo} {product product' : Product}
    {productId : Uint} {amountText secret : Bytes} {paid : List (Address × Uint)}
    (h : Moves sha3 info product (.revealBid productId amountText secret) product' paid)
    (hordered : product.PricesOrdered) :
    product'.PricesOrdered ↔
      ¬ product.LowFirst (product.bids.get (info.sender, sha3 (amountText ++ secret)))
        (EcommerceStore.stringToUint amountText) := by
  cases h with
  | revealBid _ _ _ bidInfo _ refund paid hended hbidInfo hbidder hhidden hrevealed =>
      subst hbidInfo
      exact hrevealed.pricesOrdered_iff info.sender_ne hordered

theorem Moves.pricesOrdered {info : CallInfo} {product product' : Product}
    {function : Function} {paid : List (Address × Uint)}
    (h : Moves sha3 info product function product' paid)
    (hother : ∀ productId amountText secret,
      function ≠ .revealBid productId amountText secret)
    (hordered : product.PricesOrdered) : product'.PricesOrdered := by
  cases h with
  | addProductToStore _ _ _ _ _ _ _ _ _ hnobody _ => exact fun hbidder => absurd hnobody hbidder
  | bid => exact hordered
  | revealBid productId amountText secret => exact absurd rfl (hother _ _ _)
  | finalizeAuction => exact hordered
  | releaseAmountToSeller => exact hordered
  | refundAmountToBuyer => exact hordered

theorem step_pricesOrdered {chain chain' : Chain} {call : Call}
    (hstep : step sha3 chain call = some chain')
    (hordered : ∀ slot, (chain.store.stores.get slot).PricesOrdered) :
    (∀ slot, (chain'.store.stores.get slot).PricesOrdered) ↔ ¬ lowFirst sha3 chain call := by
  have hran := step_ran hstep
  obtain ⟨paid, _, hmoves⟩ := hran.moves
  have hslot : (∀ slot, (chain'.store.stores.get slot).PricesOrdered) ↔
      (chain'.store.stores.get (slot chain.store call)).PricesOrdered := by
    refine ⟨fun h => h _, fun h other => ?_⟩
    by_cases hother : other = slot chain.store call
    · rw [hother]
      exact h
    · rw [hran.others hother]
      exact hordered other
  rw [hslot]
  obtain ⟨info, function⟩ := call
  cases function with
  | revealBid productId amountText secret => exact hmoves.pricesOrdered_iff (hordered _)
  | _ => exact ⟨fun _ => id, fun _ => hmoves.pricesOrdered nofun (hordered _)⟩

end Chain

section Runs

variable {sha3 : Bytes → Bytes32} (run : ChainRun sha3)

/-- What is owed is there. -/
theorem owed_le_balance {k : Nat} (hk : k ≤ run.length) (slot : Address × Uint) :
    ((run.state k).store.stores.get slot).owed ≤ (run.state k).store.balance := by
  have hbalance := balance_eq run k hk
  have hslot := Lib.Mapping.le_total (fun _ product => product.owed)
    (run.state k).store.stores slot Product.owed_default
  change _ ≤ (run.state k).store.owed at hslot
  omega

theorem settleable_of_ordered {k : Nat} (hk : k ≤ run.length)
    (hordered : ∀ slot, ((run.state k).store.stores.get slot).PricesOrdered) :
    (run.state k).store.Settleable where
  ordered := hordered
  refund slot hbidder := (hordered slot).refund hbidder
  finalizes call productId hcall haccepts := by
    refine (EcommerceStore.finalizeAuction_isOk_iff rfl).mpr ⟨hcall, ?_⟩
    by_cases hnone : ((run.state k).store.stores.get
        ((run.state k).store.slot productId)).highestBidder = 0
    · exact .inl hnone
    · refine .inr ⟨?_, haccepts⟩
      have howed := owed_le_balance run hk ((run.state k).store.slot productId)
      rw [Product.owed, Product.openBid_of_open hcall.opened hnone] at howed
      rw [(hordered _).refund hnone]
      omega

theorem prices_ordered_iff :
    (∀ k, k ≤ run.length → (run.state k).store.Settleable) ↔
      run.AllSteps fun chain call => ¬ Chain.lowFirst sha3 chain call := by
  constructor
  · intro hsettleable k hk
    exact (Chain.step_pricesOrdered (run.steps k hk)
      (hsettleable k (Nat.le_of_lt hk)).ordered).mp (hsettleable (k + 1) hk).ordered
  · intro hsteps k hk
    refine settleable_of_ordered run hk ?_
    refine run.induct (P := fun k =>
      ∀ slot, ((run.state k).store.stores.get slot).PricesOrdered) ?_ ?_ k hk
    · rw [run.starts]
      intro slot hbidder
      exact absurd rfl hbidder
    · intro k hk ih
      exact (Chain.step_pricesOrdered (run.steps k hk) ih).mpr (hsteps k hk)

end Runs

section LowBid

/-! Account 2 deposits 30 on a product of start price 5, and reveals a bid of 3. -/

def lowBid : List Call :=
  [⟨⟨1, 0, 10, fun _ => true, one_ne⟩, .addProductToStore [] [] [] [] 10 20 5 0⟩,
    ⟨⟨2, 30, 15, fun _ => true, two_ne⟩, .bid 1 (packed "3secret".toUTF8.toList)⟩,
    ⟨⟨2, 0, 21, fun _ => true, two_ne⟩,
      .revealBid 1 "3".toUTF8.toList "secret".toUTF8.toList⟩]

theorem prices_disordered :
    ¬ ∀ run : ChainRun packed, ∀ k, k ≤ run.length → (run.state k).store.Settleable := by
  intro h
  have hrun : (Lib.exec (Chain.step packed) Chain.create lowBid).map (fun chain =>
      ((chain.store.stores.get (1, 1)).highestBidder,
        (chain.store.stores.get (1, 1)).highestBid,
        (chain.store.stores.get (1, 1)).secondHighestBid)) = some (2, 3, 5) := by
    decide +kernel
  obtain ⟨run, _, hprices⟩ := Lib.Run.exists_of_exec hrun
  obtain ⟨hbidder, hbids⟩ := Prod.mk.inj hprices
  obtain ⟨hhighest, hsecond⟩ := Prod.mk.inj hbids
  have hordered := (h run run.length (Nat.le_refl _)).ordered (1, 1)
  rw [Product.PricesOrdered, hbidder, hhighest, hsecond] at hordered
  exact absurd (hordered two_ne).2 (by decide)

end LowBid

end BlockchainTutorial.Auction
