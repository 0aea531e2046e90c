import BlockchainTutorial.Auction.SecondPrice

namespace BlockchainTutorial.Auction

/-! The phases of an auction. `bid` and `revealBid` both allow the instant
`auctionEndTime`, and `revealBid` does not look at the status. -/

namespace Chain

def bidsOn (slot : Address × Uint) (chain : Chain) (call : Call) : Prop :=
  (∃ productId sealedBid, call.function = .bid productId sealedBid) ∧
    Chain.slot chain.store call = slot

def revealsOn (slot : Address × Uint) (chain : Chain) (call : Call) : Prop :=
  (∃ productId amountText secret, call.function = .revealBid productId amountText secret) ∧
    Chain.slot chain.store call = slot

/-- A bid at the instant at which the auction ends finds no revealed bid on the product. -/
def NoTie (chain : Chain) (call : Call) : Prop :=
  match call.function with
  | .bid productId _ =>
      let product := chain.store.stores.get (chain.store.slot productId)
      call.info.now = product.auctionEndTime → ∀ key, (product.bids.get key).revealed = false
  | _ => True

/-- A bid that is revealed on a product that is not open leaves the highest bids alone. -/
def LateHarmless (sha3 : Bytes → Bytes32) (chain : Chain) (call : Call) : Prop :=
  match call.function with
  | .revealBid productId amountText secret =>
      let product := chain.store.stores.get (chain.store.slot productId)
      let bidInfo := product.bids.get (call.info.sender, sha3 (amountText ++ secret))
      let amount := EcommerceStore.stringToUint amountText
      product.status = .open ∨ bidInfo.value < amount ∨
        product.highestBidder ≠ 0 ∧ amount ≤ product.highestBid ∧
          amount ≤ product.secondHighestBid
  | _ => True

def KeepsPhases (sha3 : Bytes → Bytes32) (chain : Chain) (call : Call) : Prop :=
  NoTie chain call ∧ LateHarmless sha3 chain call

instance (chain : Chain) (call : Call) : Decidable (NoTie chain call) :=
  match h : call.function with
  | .bid productId _ =>
      let product := chain.store.stores.get (chain.store.slot productId)
      decidable_of_iff (call.info.now = product.auctionEndTime →
        ∀ entry ∈ product.bids.written.entries, entry.2.revealed = false) (by
          rw [NoTie, h]
          exact imp_congr_right fun _ =>
            (Lib.Mapping.forall_get_iff (P := fun bid : Bid => bid.revealed = false) rfl _).symm)
  | .addProductToStore .. | .revealBid .. | .finalizeAuction .. | .releaseAmountToSeller ..
  | .refundAmountToBuyer .. => isTrue (by rw [NoTie, h]; trivial)

instance (sha3 : Bytes → Bytes32) (chain : Chain) (call : Call) :
    Decidable (LateHarmless sha3 chain call) :=
  match h : call.function with
  | .revealBid productId amountText secret =>
      let product := chain.store.stores.get (chain.store.slot productId)
      let bidInfo := product.bids.get (call.info.sender, sha3 (amountText ++ secret))
      let amount := EcommerceStore.stringToUint amountText
      decidable_of_iff (product.status = .open ∨ bidInfo.value < amount ∨
        product.highestBidder ≠ 0 ∧ amount ≤ product.highestBid ∧
          amount ≤ product.secondHighestBid) (by rw [LateHarmless, h])
  | .addProductToStore .. | .bid .. | .finalizeAuction .. | .releaseAmountToSeller ..
  | .refundAmountToBuyer .. => isTrue (by rw [LateHarmless, h]; trivial)

instance (sha3 : Bytes → Bytes32) (chain : Chain) (call : Call) :
    Decidable (KeepsPhases sha3 chain call) :=
  inferInstanceAs (Decidable (_ ∧ _))

section Moves

variable {sha3 : Bytes → Bytes32} {info : CallInfo} {product product' : Product}
  {function : Function} {paid : List (Address × Uint)}

theorem Moves.running {productId : Uint} {sealedBid : Bytes32}
    (h : Moves sha3 info product (.bid productId sealedBid) product' paid) :
    info.now ≤ product.auctionEndTime := by
  cases h with
  | bid _ _ hstarted hrunning hfree => exact hrunning

theorem Moves.ended {productId : Uint} {amountText secret : Bytes}
    (h : Moves sha3 info product (.revealBid productId amountText secret) product' paid) :
    product.auctionEndTime ≤ info.now := by
  cases h with
  | revealBid _ _ _ bidInfo product' refund paid hended => exact hended

/-- What a call does to one bid. -/
theorem Moves.bid_cases (h : Moves sha3 info product function product' paid)
    (key : Address × Bytes32) :
    product'.bids.get key = product.bids.get key ∨
    ((product.bids.get key).bidder = 0 ∧ (product'.bids.get key).revealed = false) ∨
    ((∃ productId amountText secret, function = .revealBid productId amountText secret) ∧
      (product.bids.get key).revealed = false ∧ (product'.bids.get key).revealed = true ∧
      (product'.bids.get key).bidder ≠ 0) := by
  cases h with
  | addProductToStore _ _ _ _ _ _ _ _ _ _ hbids => exact .inl (by rw [hbids])
  | bid productId sealedBid hstarted hrunning hfree =>
      by_cases hkey : key = (info.sender, sealedBid)
      · subst hkey
        exact .inr (.inl ⟨hfree, by rw [Lib.Mapping.get_set_self]⟩)
      · exact .inl (Lib.Mapping.get_set_of_ne _ _ hkey)
  | revealBid productId amountText secret bidInfo product'' refund paid hended hbidInfo
      hbidder hhidden hrevealed =>
      by_cases hkey : key = (info.sender, sha3 (amountText ++ secret))
      · subst hkey
        refine .inr (.inr ⟨⟨_, _, _, rfl⟩, hbidInfo ▸ hhidden, ?_, ?_⟩)
        · rw [Lib.Mapping.get_set_self]
        · rw [Lib.Mapping.get_set_self]
          exact hbidder
      · refine .inl ((Lib.Mapping.get_set_of_ne _ _ hkey).trans ?_)
        rw [hrevealed.frame.1]
  | finalizeAuction => exact .inl rfl
  | releaseAmountToSeller => exact .inl rfl
  | refundAmountToBuyer => exact .inl rfl

theorem Moves.reveals {productId : Uint} {amountText secret : Bytes}
    (h : Moves sha3 info product (.revealBid productId amountText secret) product' paid) :
    (product'.bids.get (info.sender, sha3 (amountText ++ secret))).revealed = true ∧
      (product'.bids.get (info.sender, sha3 (amountText ++ secret))).bidder ≠ 0 := by
  cases h with
  | revealBid _ _ _ bidInfo product'' refund paid hended hbidInfo hbidder =>
      rw [Lib.Mapping.get_set_self]
      exact ⟨rfl, hbidder⟩

end Moves

end Chain

section Runs

variable {sha3 : Bytes → Bytes32} (run : ChainRun sha3)

/-- The product in the slot is the same one from `first` to `last`. -/
def SameProduct (slot : Address × Uint) (first last : Nat) : Prop :=
  ∀ j, first ≤ j → j < last → ¬ Chain.creates slot (run.state j) (run.act j)

/-- A bid on a product after a reveal. -/
def Overlap (slot : Address × Uint) (i j : Nat) : Prop :=
  i < j ∧ j < run.length ∧ Chain.revealsOn slot (run.state i) (run.act i) ∧
    Chain.bidsOn slot (run.state j) (run.act j) ∧ SameProduct run slot i j

/-- Once a product is not open any more, its highest bids stay, and a call on it pays
no more than the value of the bid that it reveals, to its bidder. -/
structure Settled (slot : Address × Uint) (k : Nat) : Prop where
  highestBidder : (productAt run slot (k + 1)).highestBidder =
    (productAt run slot k).highestBidder
  highestBid : (productAt run slot (k + 1)).highestBid = (productAt run slot k).highestBid
  secondHighestBid : (productAt run slot (k + 1)).secondHighestBid =
    (productAt run slot k).secondHighestBid
  paid : Chain.slot (run.state k).store (run.act k) = slot →
    ∀ payment ∈ (run.state (k + 1)).store.transfers.drop (run.state k).store.transfers.length,
      ∃ bid, Chain.revealedBid sha3 (run.state k).store (run.act k) = some bid ∧
        payment.1 = bid.bidder ∧ payment.2.toNat = bid.value

structure PhasesApart : Prop where
  bidding : ∀ slot i j, ¬ Overlap run slot i j
  settlement : ∀ slot k, k < run.length → (productAt run slot k).status ≠ .open →
    ¬ Chain.creates slot (run.state k) (run.act k) → Settled run slot k

theorem time_le {i : Nat} (hi : i < run.length) : ∀ j, i + 1 ≤ j → j ≤ run.length →
    (run.act i).info.now ≤ (run.state j).time := by
  refine run.induct_from ?_ ?_
  · rw [(Chain.step_eq_some (run.steps i hi)).2.2.2]
    exact BitVec.le_refl _
  · intro j _ hj ih
    obtain ⟨hle, _, _, htime⟩ := Chain.step_eq_some (run.steps j hj)
    rw [htime]
    exact BitVec.le_trans ih hle

/-- Bidding and revealing meet in one instant at most. -/
theorem Overlap.tie {slot : Address × Uint} {i j : Nat} (h : Overlap run slot i j) :
    (run.act i).info.now = (productAt run slot j).auctionEndTime ∧
      (run.act j).info.now = (productAt run slot j).auctionEndTime := by
  obtain ⟨hij, hj, ⟨⟨revealId, amountText, secret, hreveal⟩, hrevealSlot⟩,
    ⟨⟨bidId, sealedBid, hbid⟩, hbidSlot⟩, hsame⟩ := h
  have hi : i < run.length := by omega
  have hend := (terms_eq run slot i j (by omega) (by omega) hsame).2
  obtain ⟨_, _, hrevealed⟩ := moves_at run slot (Nat.le_refl i) hi hrevealSlot
  obtain ⟨_, _, hbids⟩ := moves_at run slot (Nat.le_refl j) hj hbidSlot
  rw [hreveal] at hrevealed
  rw [hbid] at hbids
  have hended := hrevealed.ended
  have hrunning := hbids.running
  rw [← hend] at hended
  have htime : (run.act i).info.now ≤ (run.act j).info.now :=
    BitVec.le_trans (time_le run hi j (by omega) (by omega))
      (Chain.step_eq_some (run.steps j hj)).1
  exact ⟨BitVec.le_antisymm (BitVec.le_trans htime hrunning) hended,
    BitVec.le_antisymm hrunning (BitVec.le_trans hended htime)⟩

/-- A call on the product that is in the slot. -/
theorem moves_of_slot {slot : Address × Uint} {k : Nat} (hk : k < run.length)
    (hslot : Chain.slot (run.state k).store (run.act k) = slot) :
    ∃ paid, Chain.Moves sha3 (run.act k).info (productAt run slot k) (run.act k).function
      (productAt run slot (k + 1)) paid := by
  obtain ⟨paid, _, hmoves⟩ := moves_at run slot (Nat.le_refl k) hk hslot
  exact ⟨paid, hmoves⟩

/-- A revealed bid stays where it is. -/
theorem revealed_kept {slot : Address × Uint} {key : Address × Bytes32} (first : Nat)
    (hfirst : ((productAt run slot first).bids.get key).revealed = true ∧
      ((productAt run slot first).bids.get key).bidder ≠ 0) :
    ∀ k, first ≤ k → k ≤ run.length →
      ((productAt run slot k).bids.get key).revealed = true ∧
        ((productAt run slot k).bids.get key).bidder ≠ 0 := by
  refine run.induct_from hfirst fun k _ hk ih => ?_
  by_cases hslot : Chain.slot (run.state k).store (run.act k) = slot
  · obtain ⟨_, hmoves⟩ := moves_of_slot run hk hslot
    rcases hmoves.bid_cases key with hsame | ⟨hfree, _⟩ | ⟨_, hhidden, _⟩
    · rwa [hsame]
    · exact absurd hfree ih.2
    · rw [ih.1] at hhidden
      cases hhidden
  · rwa [(elsewhere run slot (Nat.le_refl k) hk hslot).1]

/-- A bid is marked as revealed by a reveal on its slot. -/
theorem revealed_before (slot : Address × Uint) (key : Address × Bytes32) :
    ∀ k, k ≤ run.length → ((productAt run slot k).bids.get key).revealed = true →
      ∃ i, i < k ∧ Chain.revealsOn slot (run.state i) (run.act i) := by
  refine run.induct ?_ fun k hk ih hrevealed => ?_
  · rw [productAt, run.starts]
    exact fun hrevealed => by cases hrevealed
  · have hearlier : ((productAt run slot k).bids.get key).revealed = true →
        ∃ i, i < k + 1 ∧ Chain.revealsOn slot (run.state i) (run.act i) := by
      intro hbefore
      obtain ⟨i, hi, hreveals⟩ := ih hbefore
      exact ⟨i, Nat.lt_succ_of_lt hi, hreveals⟩
    by_cases hslot : Chain.slot (run.state k).store (run.act k) = slot
    · obtain ⟨_, hmoves⟩ := moves_of_slot run hk hslot
      rcases hmoves.bid_cases key with hsame | ⟨_, hhidden⟩ | ⟨hreveals, _⟩
      · exact hearlier (hsame ▸ hrevealed)
      · rw [hrevealed] at hhidden
        cases hhidden
      · exact ⟨k, Nat.lt_succ_self k, hreveals, hslot⟩
    · rw [(elsewhere run slot (Nat.le_refl k) hk hslot).1] at hrevealed
      exact hearlier hrevealed

/-! Fewer than `2 ^ 256` calls put no product over another one. -/

/-- The index counts the products, and only those that it has counted have a seller. -/
structure Listed (store : EcommerceStore) (k : Nat) : Prop where
  count : store.productIndex.toNat ≤ k
  listed : ∀ productId, store.productIdInStore.get productId ≠ 0 →
    productId.toNat ≤ store.productIndex.toNat

theorem toNat_succ {n : Uint} (h : n.toNat + 1 < 2 ^ 256) : (n + 1).toNat = n.toNat + 1 := by
  rw [BitVec.toNat_add]
  exact Nat.mod_eq_of_lt h

theorem Listed.ran {store store' : EcommerceStore} {info : CallInfo} {function : Function}
    {k : Nat} (hk : k + 1 < 2 ^ 256) (h : Listed store k)
    (hran : Chain.Ran sha3 store info function store') :
    Listed store' (k + 1) ∧ store.productIndex.toNat ≤ store'.productIndex.toNat := by
  have hcount := h.count
  have hsame : store'.productIndex = store.productIndex →
      store'.productIdInStore = store.productIdInStore →
      Listed store' (k + 1) ∧ store.productIndex.toNat ≤ store'.productIndex.toNat := by
    intro hindex hsellers
    rw [hindex]
    refine ⟨⟨by rw [hindex]; omega, fun productId hseller => ?_⟩, Nat.le_refl _⟩
    rw [hindex]
    exact h.listed productId (hsellers ▸ hseller)
  cases hran with
  | addProductToStore =>
      have hnext : (store.productIndex + 1).toNat = store.productIndex.toNat + 1 :=
        toNat_succ (by omega)
      refine ⟨⟨by dsimp only; omega, fun productId hseller => ?_⟩, by dsimp only; omega⟩
      by_cases heq : productId = store.productIndex + 1
      · rw [heq]
      · dsimp only at hseller ⊢
        rw [Lib.Mapping.get_set_of_ne _ _ heq] at hseller
        have hold := h.listed productId hseller
        omega
  | bid productId sealedBid _ hbids => exact hsame (by rw [hbids.eq]) (by rw [hbids.eq])
  | revealBid productId amountText secret _ bidInfo product' refund paid hreveals =>
      obtain ⟨_, _, rfl⟩ := hreveals.eq
      exact hsame rfl rfl
  | finalizeAuction productId _ hended hopen hfinalized =>
      cases hfinalized with
      | unsold => exact hsame rfl rfl
      | sold => exact hsame rfl rfl
  | releaseAmountToSeller => exact hsame rfl rfl
  | refundAmountToBuyer => exact hsame rfl rfl

variable (hlength : run.length < 2 ^ 256)

include hlength

theorem listed : ∀ k, k ≤ run.length → Listed (run.state k).store k := by
  refine run.induct ?_ fun k hk ih => ?_
  · rw [run.starts]
    exact ⟨Nat.le_refl 0, fun productId hseller => absurd rfl hseller⟩
  · exact (ih.ran (by omega) (Chain.step_ran (run.steps k hk))).1

theorem productIndex_mono {i j : Nat} (hij : i ≤ j) (hj : j ≤ run.length) :
    (run.state i).store.productIndex.toNat ≤ (run.state j).store.productIndex.toNat := by
  refine run.monotone (m := fun chain => chain.store.productIndex.toNat) (fun k hk => ?_) hij hj
  exact ((listed run hlength k (Nat.le_of_lt hk)).ran (by omega)
    (Chain.step_ran (run.steps k hk))).2

/-- A product with a revealed bid is not written over. -/
theorem sameProduct {slot : Address × Uint} {i j : Nat} (hj : j ≤ run.length)
    (hreveals : Chain.revealsOn slot (run.state i) (run.act i)) : SameProduct run slot i j := by
  rintro k hik hkj ⟨hcreates, hslot⟩
  obtain ⟨⟨productId, amountText, secret, hreveal⟩, hplace⟩ := hreveals
  rw [Chain.slot, hreveal] at hplace
  have hk : Listed _ k := listed run hlength k (by omega)
  have hcount := hk.count
  have hindex := productIndex_mono run hlength hik (by omega)
  cases hfunction : (run.act k).function with
  | addProductToStore =>
      rw [Chain.slot, hfunction, ← hplace] at hslot
      obtain ⟨hseller, hid⟩ := Prod.mk.inj hslot
      have hlisted := (listed run hlength i (by omega)).listed productId
        (hseller ▸ (run.act k).info.sender_ne)
      rw [← hid, toNat_succ (by omega)] at hlisted
      omega
  | _ =>
      rw [hfunction] at hcreates
      cases hcreates

end Runs

section Reveal

variable {sender : Address} {product product' : Product} {bidInfo : Bid}
  {amount refund : Uint} {paid : List (Address × Uint)}

/-- A reveal leaves the highest bids alone when it is short or not above them. -/
theorem revealed_same_iff (hsender : sender ≠ 0)
    (h : EcommerceStore.Revealed sender product bidInfo amount product' refund paid) :
    (product'.highestBidder = product.highestBidder ∧
        product'.highestBid = product.highestBid ∧
        product'.secondHighestBid = product.secondHighestBid) ↔
      (bidInfo.value < amount ∨ product.highestBidder ≠ 0 ∧ amount ≤ product.highestBid ∧
        amount ≤ product.secondHighestBid) := by
  cases h with
  | short hshort => exact ⟨fun _ => .inl hshort, fun _ => ⟨rfl, rfl, rfl⟩⟩
  | first hcovered hfirst =>
      constructor
      · rintro ⟨hbidder, _⟩
        exact absurd (hbidder.trans hfirst) hsender
      · rintro (hshort | ⟨hnext, _⟩)
        · exact absurd hshort (BitVec.not_lt.mpr hcovered)
        · exact absurd hfirst hnext
  | outbid hcovered hnext hhigher =>
      constructor
      · rintro ⟨_, hhighest, _⟩
        rw [← hhighest] at hhigher
        exact absurd hhigher (BitVec.lt_irrefl _)
      · rintro (hshort | ⟨_, hlower, _⟩)
        · exact absurd hshort (BitVec.not_lt.mpr hcovered)
        · exact absurd hhigher (BitVec.not_lt.mpr hlower)
  | second hcovered hnext hhigher hsecond =>
      constructor
      · rintro ⟨_, _, hsame⟩
        rw [← hsame] at hsecond
        exact absurd hsecond (BitVec.lt_irrefl _)
      · rintro (hshort | ⟨_, _, hlower⟩)
        · exact absurd hshort (BitVec.not_lt.mpr hcovered)
        · exact absurd hsecond (BitVec.not_lt.mpr hlower)
  | lower hcovered hnext hhigher hsecond =>
      exact ⟨fun _ => .inr ⟨hnext, hhigher, hsecond⟩, fun _ => ⟨rfl, rfl, rfl⟩⟩

theorem refund_of_same
    (h : EcommerceStore.Revealed sender product bidInfo amount product' refund paid)
    (hsame : bidInfo.value < amount ∨ product.highestBidder ≠ 0 ∧
      amount ≤ product.highestBid ∧ amount ≤ product.secondHighestBid) :
    paid = [] ∧ refund = bidInfo.value := by
  cases h with
  | short => exact ⟨rfl, rfl⟩
  | first hcovered hfirst =>
      rcases hsame with hshort | ⟨hnext, _⟩
      · exact absurd hshort (BitVec.not_lt.mpr hcovered)
      · exact absurd hfirst hnext
  | outbid hcovered hnext hhigher =>
      rcases hsame with hshort | ⟨_, hlower, _⟩
      · exact absurd hshort (BitVec.not_lt.mpr hcovered)
      · exact absurd hhigher (BitVec.not_lt.mpr hlower)
  | second => exact ⟨rfl, rfl⟩
  | lower => exact ⟨rfl, rfl⟩

theorem mem_refunds {receiver : Address} {payment : Address × Uint}
    (h : payment ∈ EcommerceStore.refunds receiver refund) :
    payment = (receiver, refund) := by
  unfold EcommerceStore.refunds at h
  split at h
  · exact List.mem_singleton.mp h
  · cases h

end Reveal

section Phases

variable {sha3 : Bytes → Bytes32} (run : ChainRun sha3)

theorem lateHarmless_iff {slot : Address × Uint} {k : Nat}
    (hslot : Chain.slot (run.state k).store (run.act k) = slot) {productId : Uint}
    {amountText secret : Bytes} {bidInfo : Bid}
    (hfunction : (run.act k).function = .revealBid productId amountText secret)
    (hbidInfo : bidInfo = (productAt run slot k).bids.get
      ((run.act k).info.sender, sha3 (amountText ++ secret))) :
    Chain.LateHarmless sha3 (run.state k) (run.act k) ↔
      (productAt run slot k).status = .open ∨
        bidInfo.value < EcommerceStore.stringToUint amountText ∨
        (productAt run slot k).highestBidder ≠ 0 ∧
          EcommerceStore.stringToUint amountText ≤ (productAt run slot k).highestBid ∧
          EcommerceStore.stringToUint amountText ≤ (productAt run slot k).secondHighestBid := by
  have hplace : (run.state k).store.slot productId = slot := by
    rw [← hslot, Chain.slot, hfunction]
  unfold Chain.LateHarmless
  rw [hfunction, hbidInfo, productAt, ← hplace]

/-- The product and the transfers at a call on the product. -/
theorem moves_drop {slot : Address × Uint} {k : Nat} (hk : k < run.length)
    (hslot : Chain.slot (run.state k).store (run.act k) = slot) :
    Chain.Moves sha3 (run.act k).info (productAt run slot k) (run.act k).function
      (productAt run slot (k + 1))
      ((run.state (k + 1)).store.transfers.drop (run.state k).store.transfers.length) := by
  obtain ⟨paid, htransfers, hmoves⟩ := (Chain.step_ran (run.steps k hk)).moves
  rw [htransfers, List.drop_left]
  subst hslot
  exact hmoves

theorem settled {slot : Address × Uint} {k : Nat} (hk : k < run.length)
    (hclosed : (productAt run slot k).status ≠ .open)
    (hold : ¬ Chain.creates slot (run.state k) (run.act k))
    (hharmless : Chain.LateHarmless sha3 (run.state k) (run.act k)) :
    Settled run slot k := by
  by_cases hslot : Chain.slot (run.state k).store (run.act k) = slot
  · have hmoves := moves_drop run hk hslot
    generalize hfunction : (run.act k).function = function at hmoves
    generalize hproduct : productAt run slot (k + 1) = product' at hmoves
    generalize hdrop : (run.state (k + 1)).store.transfers.drop
      (run.state k).store.transfers.length = paid at hmoves
    have hquiet (hsame : product'.highestBidder = (productAt run slot k).highestBidder ∧
          product'.highestBid = (productAt run slot k).highestBid ∧
          product'.secondHighestBid = (productAt run slot k).secondHighestBid)
        (hpaid : ∀ payment ∈ paid,
          ∃ bid, Chain.revealedBid sha3 (run.state k).store (run.act k) = some bid ∧
            payment.1 = bid.bidder ∧ payment.2.toNat = bid.value) : Settled run slot k := by
      refine ⟨by rw [hproduct, hsame.1], by rw [hproduct, hsame.2.1],
        by rw [hproduct, hsame.2.2], fun _ => ?_⟩
      rw [hdrop]
      exact hpaid
    cases hmoves with
    | addProductToStore => exact absurd ⟨by rw [hfunction]; rfl, hslot⟩ hold
    | bid => exact hquiet ⟨rfl, rfl, rfl⟩ (by simp)
    | revealBid productId amountText secret bidInfo product'' refund paid hended hbidInfo
        hbidder hhidden hrevealed =>
        have hlow := ((lateHarmless_iff run hslot hfunction hbidInfo).mp hharmless).resolve_left
          hclosed
        obtain ⟨rfl, rfl⟩ := refund_of_same hrevealed hlow
        refine hquiet ((revealed_same_iff (run.act k).info.sender_ne hrevealed).mpr hlow) ?_
        intro payment hmem
        rw [mem_refunds hmem]
        have hplace : (run.state k).store.slot productId = slot := by
          rw [← hslot, Chain.slot, hfunction]
        unfold Chain.revealedBid
        rw [hfunction]
        refine ⟨_, rfl, rfl, ?_⟩
        rw [hbidInfo, productAt, ← hplace]
    | finalizeAuction productId status paid hended hopen => exact absurd hopen hclosed
    | releaseAmountToSeller => exact hquiet ⟨rfl, rfl, rfl⟩ (by simp)
    | refundAmountToBuyer => exact hquiet ⟨rfl, rfl, rfl⟩ (by simp)
  · have hsame := (elsewhere run slot (Nat.le_refl k) hk hslot).1
    exact ⟨by rw [hsame], by rw [hsame], by rw [hsame], fun heq => absurd heq hslot⟩

theorem harmless_of_settled {k : Nat} (hk : k < run.length)
    (h : ∀ slot, (productAt run slot k).status ≠ .open →
      ¬ Chain.creates slot (run.state k) (run.act k) → Settled run slot k) :
    Chain.LateHarmless sha3 (run.state k) (run.act k) := by
  cases hfunction : (run.act k).function with
  | revealBid productId amountText secret =>
      obtain ⟨slot, hslot⟩ : ∃ slot, Chain.slot (run.state k).store (run.act k) = slot :=
        ⟨_, rfl⟩
      have hmoves := moves_drop run hk hslot
      rw [hfunction] at hmoves
      generalize hproduct : productAt run slot (k + 1) = product' at hmoves
      generalize (run.state (k + 1)).store.transfers.drop
        (run.state k).store.transfers.length = paid at hmoves
      cases hmoves with
      | revealBid _ _ _ bidInfo product'' refund paid hended hbidInfo hbidder hhidden
          hrevealed =>
          rw [lateHarmless_iff run hslot hfunction hbidInfo]
          by_cases hopen : (productAt run slot k).status = .open
          · exact .inl hopen
          · have hold : ¬ Chain.creates slot (run.state k) (run.act k) := by
              rintro ⟨hnew, _⟩
              rw [hfunction] at hnew
              cases hnew
            obtain ⟨hbidder', hhighest, hsecond, _⟩ := h slot hopen hold
            rw [hproduct] at hbidder' hhighest hsecond
            exact .inr ((revealed_same_iff (run.act k).info.sender_ne hrevealed).mp
              ⟨hbidder', hhighest, hsecond⟩)
  | _ => simp [Chain.LateHarmless, hfunction]

/-- A bid on a product of which a bid was revealed finds that one, at the last instant. -/
theorem not_overlap {slot : Address × Uint} {i j : Nat} (h : Overlap run slot i j)
    (hno : Chain.NoTie (run.state j) (run.act j)) : False := by
  have hend := h.tie.2
  obtain ⟨hij, hj, ⟨⟨revealId, amountText, secret, hreveal⟩, hrevealSlot⟩,
    ⟨⟨bidId, sealedBid, hbid⟩, hbidSlot⟩, _⟩ := h
  obtain ⟨_, hmoves⟩ := moves_of_slot run (Nat.lt_trans hij hj) hrevealSlot
  rw [hreveal] at hmoves
  have hkept := revealed_kept run (i + 1) hmoves.reveals j hij (Nat.le_of_lt hj)
  rw [Chain.slot, hbid] at hbidSlot
  unfold Chain.NoTie at hno
  rw [hbid] at hno
  dsimp only at hno hbidSlot
  rw [hbidSlot] at hno
  have hhidden := hno hend ((run.act i).info.sender, sha3 (amountText ++ secret))
  have hrevealed := hkept.1
  rw [productAt, hhidden] at hrevealed
  cases hrevealed

theorem noTie_of_apart (hlength : run.length < 2 ^ 256)
    (hapart : ∀ slot i j, ¬ Overlap run slot i j) : run.AllSteps Chain.NoTie := by
  intro j hj
  cases hfunction : (run.act j).function with
  | bid productId sealedBid =>
      unfold Chain.NoTie
      rw [hfunction]
      intro _ key
      refine Bool.eq_false_iff.mpr fun hrevealed => ?_
      obtain ⟨i, hij, hreveals⟩ := revealed_before run _ key j (Nat.le_of_lt hj) hrevealed
      refine hapart _ i j ⟨hij, hj, hreveals, ⟨⟨_, _, hfunction⟩, ?_⟩,
        sameProduct run hlength (Nat.le_of_lt hj) hreveals⟩
      rw [Chain.slot, hfunction]
  | _ => simp [Chain.NoTie, hfunction]

/-- The phases are apart in every run whose calls keep them apart; and only in these, as
long as the index of the products does not start again. -/
theorem phases_apart_iff :
    (run.AllSteps (Chain.KeepsPhases sha3) → PhasesApart run) ∧
      (run.length < 2 ^ 256 → PhasesApart run → run.AllSteps (Chain.KeepsPhases sha3)) := by
  constructor
  · intro hkeeps
    exact ⟨fun slot i j hoverlap => not_overlap run hoverlap (hkeeps j hoverlap.2.1).1,
      fun slot k hk hclosed hold => settled run hk hclosed hold (hkeeps k hk).2⟩
  · intro hlength hapart k hk
    exact ⟨noTie_of_apart run hlength hapart.bidding k hk,
      harmless_of_settled run hk fun slot => hapart.settlement slot k hk⟩

end Phases

section Tied

/-! Account 3 bids and account 2 reveals its bid at the instant 20, and account 3 reveals its
bid, too low, when the product has been sold. -/

def apartActs : List Call :=
  [⟨⟨1, 0, 10, fun _ => true, one_ne⟩, .addProductToStore [] [] [] [] 10 20 5 0⟩,
    ⟨⟨2, 30, 15, fun _ => true, two_ne⟩, .bid 1 (packed "20a".toUTF8.toList)⟩,
    ⟨⟨3, 21, 20, fun _ => true, three_ne⟩, .bid 1 (packed "5b".toUTF8.toList)⟩,
    ⟨⟨2, 0, 20, fun _ => true, two_ne⟩, .revealBid 1 "20".toUTF8.toList "a".toUTF8.toList⟩,
    ⟨⟨4, 0, 21, fun _ => true, by decide⟩, .finalizeAuction 1⟩,
    ⟨⟨3, 0, 22, fun _ => true, three_ne⟩, .revealBid 1 "5".toUTF8.toList "b".toUTF8.toList⟩]

theorem apartActs_exec : (Lib.exec (Chain.step packed) Chain.create apartActs).isSome := by
  decide +kernel

theorem phases_apart_late : PhasesApart (.ofActions apartActs apartActs_exec) :=
  (phases_apart_iff _).1 (by decide +kernel)

/-! Account 2 reveals its bid at the instant 20, and account 3 bids at the same instant. -/

def tiedActs : List Call :=
  [⟨⟨1, 0, 10, fun _ => true, one_ne⟩, .addProductToStore [] [] [] [] 10 20 5 0⟩,
    ⟨⟨2, 30, 15, fun _ => true, two_ne⟩, .bid 1 (packed "20a".toUTF8.toList)⟩,
    ⟨⟨2, 0, 20, fun _ => true, two_ne⟩, .revealBid 1 "20".toUTF8.toList "a".toUTF8.toList⟩,
    ⟨⟨3, 21, 20, fun _ => true, three_ne⟩, .bid 1 (packed "21b".toUTF8.toList)⟩]

theorem tiedActs_exec : (Lib.exec (Chain.step packed) Chain.create tiedActs).isSome := by
  decide +kernel

theorem tiedActs_created : ∀ j, j < 3 → 2 ≤ j →
    ¬ Chain.creates (1, 1) ((Lib.Run.ofActions tiedActs tiedActs_exec).state j)
      ((Lib.Run.ofActions tiedActs tiedActs_exec).act j) := by
  decide +kernel

theorem phases_overlap : ¬ ∀ run : ChainRun packed, PhasesApart run := by
  intro hall
  refine (hall (.ofActions tiedActs tiedActs_exec)).bidding (1, 1) 2 3
    ⟨by decide, by decide, ⟨⟨_, _, _, rfl⟩, by decide +kernel⟩, ⟨⟨_, _, rfl⟩, by decide +kernel⟩,
      fun j hj hlast => tiedActs_created j hlast hj⟩

end Tied

end BlockchainTutorial.Auction
