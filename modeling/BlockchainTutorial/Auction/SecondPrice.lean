import Mathlib.Algebra.Order.Ring.Int
import BlockchainTutorial.Lib.TopTwo
import BlockchainTutorial.Auction.Solvency

namespace BlockchainTutorial.Auction

/-! The bids of a product that were revealed, in their order, and what came of them. -/

structure RevealedBid where
  bidder : Address
  sealedBid : Bytes32
  value : Nat
  amount : Nat
  deriving DecidableEq

def values (bids : List RevealedBid) (account : Address) : Nat :=
  ((bids.filter (·.bidder = account)).map (·.value)).sum

def received (transfers : List (Address × Uint)) (account : Address) : Nat :=
  ether (transfers.filter (·.1 = account))

/-- The ether of the highest bidder that the store keeps. -/
def Product.held (product : Product) (account : Address) : Nat :=
  if product.highestBidder ≠ 0 ∧ account = product.highestBidder then
    product.highestBid.toNat
  else 0

/-- The first bid of the highest amount leads, and the two largest amounts are kept. -/
structure Leads (startPrice : Nat) (bids : List RevealedBid) (product : Product) : Prop where
  bidder_ne : product.highestBidder ≠ 0
  topTwo : Lib.TopTwo (startPrice :: bids.map (·.amount)) product.highestBid.toNat
    product.secondHighestBid.toNat
  first : ∃ front winner back, bids = front ++ winner :: back ∧
    winner.bidder = product.highestBidder ∧ winner.amount = product.highestBid.toNat ∧
    ∀ bid ∈ front, bid.amount < product.highestBid.toNat

structure Standing (startPrice : Nat) (bids : List RevealedBid) (product : Product)
    (payments : List (Address × Uint)) : Prop where
  nobody : bids = [] → product.highestBidder = 0
  leads : bids ≠ [] → Leads startPrice bids product
  paid : ∀ account, received payments account + product.held account = values bids account

theorem Product.held_eq {product : Product} (h : product.highestBidder ≠ 0)
    (account : Address) :
    product.held account =
      if product.highestBidder = account then product.highestBid.toNat else 0 := by
  unfold held
  by_cases haccount : product.highestBidder = account
  · rw [if_pos ⟨h, haccount.symm⟩, if_pos haccount]
  · rw [if_neg fun hheld => haccount hheld.2.symm, if_neg haccount]

theorem received_append (front back : List (Address × Uint)) (account : Address) :
    received (front ++ back) account = received front account + received back account := by
  simp [received]

theorem received_singleton (receiver : Address) (amount : Uint) (account : Address) :
    received [(receiver, amount)] account = if receiver = account then amount.toNat else 0 := by
  by_cases h : receiver = account <;> simp [received, h]

theorem received_refunds (receiver : Address) (refund : Uint) (account : Address) :
    received (EcommerceStore.refunds receiver refund) account =
      if receiver = account then refund.toNat else 0 := by
  unfold EcommerceStore.refunds
  split
  · exact received_singleton receiver refund account
  · rename_i hzero
    have hzero : refund.toNat = 0 := Nat.eq_zero_of_not_pos hzero
    simp [received, hzero]

theorem values_append (bids : List RevealedBid) (bid : RevealedBid) (account : Address) :
    values (bids ++ [bid]) account =
      values bids account + if bid.bidder = account then bid.value else 0 := by
  by_cases h : bid.bidder = account <;> simp [values, h]

theorem amounts_append (startPrice : Nat) (bids : List RevealedBid) (bid : RevealedBid) :
    (startPrice :: (bids ++ [bid]).map (·.amount)).Perm
      (bid.amount :: startPrice :: bids.map (·.amount)) := by
  rw [List.map_append]
  have hcomm : ((startPrice :: bids.map (·.amount)) ++ [bid.amount]).Perm
      ([bid.amount] ++ (startPrice :: bids.map (·.amount))) := List.perm_append_comm
  exact hcomm

/-! One more reveal. -/

section Reveal

variable {startPrice : Nat} {bids : List RevealedBid} {product product' : Product}
  {payments paid : List (Address × Uint)} {sender : Address} {bidInfo : Bid}
  {amount refund : Uint} {sealedBid : Bytes32}

theorem Leads.append {bid : RevealedBid} {second : Uint}
    (h : Leads startPrice bids product)
    (htopTwo : Lib.TopTwo (bid.amount :: startPrice :: bids.map (·.amount))
      product.highestBid.toNat second.toNat) :
    Leads startPrice (bids ++ [bid]) { product with secondHighestBid := second } := by
  obtain ⟨front, winner, back, rfl, hbidder, hamount, hfront⟩ := h.first
  refine ⟨h.bidder_ne, htopTwo.perm (amounts_append _ _ _), ?_⟩
  exact ⟨front, winner, back ++ [bid], by simp, hbidder, hamount, hfront⟩

theorem Standing.leads_reveal (h : Standing startPrice bids product payments)
    (hrevealed : EcommerceStore.Revealed sender product bidInfo amount product' refund paid)
    (hsender : sender ≠ 0) (hcovered : amount ≤ bidInfo.value)
    (hprice : product.startPrice.toNat = startPrice) (hstart : startPrice ≤ amount.toNat) :
    Leads startPrice (bids ++ [⟨sender, sealedBid, bidInfo.value.toNat, amount.toNat⟩])
      product' := by
  have hsome (hnext : product.highestBidder ≠ 0) : Leads startPrice bids product :=
    h.leads fun hnil => hnext (h.nobody hnil)
  cases hrevealed with
  | short hshort => exact absurd hshort (BitVec.not_lt.mpr hcovered)
  | first _ hfirst =>
      have hnil : bids = [] := by
        by_contra hne
        exact (h.leads hne).bidder_ne hfirst
      subst hnil
      refine ⟨hsender, ?_, [], _, [], rfl, rfl, rfl, by simp⟩
      rw [← hprice] at hstart ⊢
      exact .pair hstart
  | outbid _ hnext hhigher =>
      have hlead := hsome hnext
      refine ⟨hsender, (hlead.topTwo.above hhigher).perm (amounts_append _ _ _), ?_⟩
      refine ⟨bids, _, [], rfl, rfl, rfl, ?_⟩
      intro bid hbid
      have hmem : bid.amount ∈ startPrice :: bids.map (·.amount) :=
        List.mem_cons_of_mem _ (List.mem_map_of_mem hbid)
      exact Nat.lt_of_le_of_lt (hlead.topTwo.le_top hmem) hhigher
  | second _ hnext hhigher hsecond =>
      exact (hsome hnext).append ((hsome hnext).topTwo.between hsecond hhigher)
  | lower _ hnext hhigher hsecond =>
      exact (hsome hnext).append ((hsome hnext).topTwo.below hsecond)

theorem Standing.paid_reveal (h : Standing startPrice bids product payments)
    (hrevealed : EcommerceStore.Revealed sender product bidInfo amount product' refund paid)
    (hsender : sender ≠ 0) (hcovered : amount ≤ bidInfo.value) (account : Address) :
    received (payments ++ (paid ++ EcommerceStore.refunds sender refund)) account +
        product'.held account =
      values (bids ++ [⟨sender, sealedBid, bidInfo.value.toNat, amount.toNat⟩]) account := by
  have hpaid := h.paid account
  have hrest : (bidInfo.value - amount).toNat + amount.toNat = bidInfo.value.toNat := by
    bv_omega
  rw [received_append, received_append, received_refunds, values_append]
  cases hrevealed with
  | short hshort => exact absurd hshort (BitVec.not_lt.mpr hcovered)
  | first _ hfirst =>
      have hold : product.held account = 0 := if_neg fun hheld => hheld.1 hfirst
      rw [Product.held_eq hsender, show received [] account = 0 from rfl]
      dsimp only
      split_ifs <;> omega
  | outbid _ hnext hhigher =>
      rw [Product.held_eq hsender, received_singleton]
      rw [Product.held_eq hnext] at hpaid
      dsimp only
      split_ifs at hpaid ⊢ <;> omega
  | second _ hnext hhigher hsecond =>
      have hsame : Product.held { product with secondHighestBid := amount } account =
          product.held account := rfl
      rw [hsame, show received [] account = 0 from rfl]
      dsimp only
      omega
  | lower _ hnext hhigher hsecond =>
      rw [show received [] account = 0 from rfl]
      dsimp only
      omega

theorem Standing.reveal (h : Standing startPrice bids product payments)
    (hrevealed : EcommerceStore.Revealed sender product bidInfo amount product' refund paid)
    (hsender : sender ≠ 0) (hcovered : amount ≤ bidInfo.value)
    (hprice : product.startPrice.toNat = startPrice) (hstart : startPrice ≤ amount.toNat) :
    Standing startPrice (bids ++ [⟨sender, sealedBid, bidInfo.value.toNat, amount.toNat⟩])
      product' (payments ++ (paid ++ EcommerceStore.refunds sender refund)) where
  nobody hnil := absurd hnil (by simp)
  leads _ := h.leads_reveal hrevealed hsender hcovered hprice hstart
  paid := h.paid_reveal hrevealed hsender hcovered

/-- Only the prices and the highest bidder count. -/
theorem Standing.same (h : Standing startPrice bids product payments)
    (hbidder : product'.highestBidder = product.highestBidder)
    (hhighest : product'.highestBid = product.highestBid)
    (hsecond : product'.secondHighestBid = product.secondHighestBid) :
    Standing startPrice bids product' payments := by
  refine ⟨?_, ?_, ?_⟩
  · rw [hbidder]
    exact h.nobody
  · intro hne
    obtain ⟨hbidder_ne, htopTwo, hfirst⟩ := h.leads hne
    refine ⟨?_, ?_, ?_⟩
    · rwa [hbidder]
    · rwa [hhighest, hsecond]
    · rwa [hhighest, hbidder]
  · intro account
    rw [Product.held, hbidder, hhighest]
    exact h.paid account

end Reveal

/-! The reveals of a product in a run. -/

namespace Chain

def revealedBid (sha3 : Bytes → Bytes32) (store : EcommerceStore) (call : Call) :
    Option RevealedBid :=
  match call.function with
  | .revealBid productId amountText secret =>
      let sealedBid := sha3 (amountText ++ secret)
      let bidInfo := (store.stores.get (store.slot productId)).bids.get
        (call.info.sender, sealedBid)
      some ⟨call.info.sender, sealedBid, bidInfo.value.toNat,
        (EcommerceStore.stringToUint amountText).toNat⟩
  | _ => none

end Chain

section Runs

variable {sha3 : Bytes → Bytes32}

def productAt (run : ChainRun sha3) (slot : Address × Uint) (k : Nat) : Product :=
  (run.state k).store.stores.get slot

/-- What the calls on a product from `first` on, before `k`, have revealed. -/
def reveals (run : ChainRun sha3) (slot : Address × Uint) (first k : Nat) :
    List RevealedBid :=
  (List.range' first (k - first)).filterMap fun j =>
    if Chain.slot (run.state j).store (run.act j) = slot then
      Chain.revealedBid sha3 (run.state j).store (run.act j)
    else none

/-- What these calls have paid. -/
def payments (run : ChainRun sha3) (slot : Address × Uint) (first k : Nat) :
    List (Address × Uint) :=
  (List.range' first (k - first)).flatMap fun j =>
    if Chain.slot (run.state j).store (run.act j) = slot then
      (run.state (j + 1)).store.transfers.drop (run.state j).store.transfers.length
    else []

theorem range'_succ_sub {first k : Nat} (h : first ≤ k) :
    List.range' first (k + 1 - first) = List.range' first (k - first) ++ [k] := by
  rw [Nat.succ_sub h, List.range'_1_concat, Nat.add_sub_cancel' h]

variable (run : ChainRun sha3) (slot : Address × Uint)

theorem reveals_succ {first k : Nat} (h : first ≤ k) :
    reveals run slot first (k + 1) = reveals run slot first k ++
      (if Chain.slot (run.state k).store (run.act k) = slot then
        Chain.revealedBid sha3 (run.state k).store (run.act k) else none).toList := by
  rw [reveals, range'_succ_sub h, List.filterMap_append, List.filterMap_cons,
    List.filterMap_nil]
  split <;> rename_i hlast <;> simp only [hlast] <;> rfl

theorem payments_succ {first k : Nat} (h : first ≤ k) :
    payments run slot first (k + 1) = payments run slot first k ++
      if Chain.slot (run.state k).store (run.act k) = slot then
        (run.state (k + 1)).store.transfers.drop (run.state k).store.transfers.length
      else [] := by
  rw [payments, range'_succ_sub h, List.flatMap_append]
  simp [payments]

/-- A step on another product. -/
theorem elsewhere {first k : Nat} (h : first ≤ k) (hk : k < run.length)
    (hslot : Chain.slot (run.state k).store (run.act k) ≠ slot) :
    productAt run slot (k + 1) = productAt run slot k ∧
      reveals run slot first (k + 1) = reveals run slot first k ∧
      payments run slot first (k + 1) = payments run slot first k := by
  refine ⟨?_, ?_, ?_⟩
  · exact (Chain.step_ran (run.steps k hk)).others (Ne.symm hslot)
  · rw [reveals_succ run slot h, if_neg hslot]
    exact List.append_nil _
  · rw [payments_succ run slot h, if_neg hslot, List.append_nil]

/-- A step on the product. -/
theorem moves_at {first k : Nat} (h : first ≤ k) (hk : k < run.length)
    (hslot : Chain.slot (run.state k).store (run.act k) = slot) :
    ∃ paid, payments run slot first (k + 1) = payments run slot first k ++ paid ∧
      Chain.Moves sha3 (run.act k).info (productAt run slot k) (run.act k).function
        (productAt run slot (k + 1)) paid := by
  obtain ⟨paid, htransfers, hmoves⟩ := (Chain.step_ran (run.steps k hk)).moves
  refine ⟨paid, ?_, ?_⟩
  · rw [payments_succ run slot h, if_pos hslot, htransfers, List.drop_left]
  · subst hslot
    exact hmoves

theorem reveals_kept {first k : Nat} (h : first ≤ k)
    (hnone : Chain.revealedBid sha3 (run.state k).store (run.act k) = none) :
    reveals run slot first (k + 1) = reveals run slot first k := by
  rw [reveals_succ run slot h, hnone, ite_self]
  exact List.append_nil _

theorem standing_created {i : Nat} (hi : i < run.length)
    (hcreates : Chain.creates slot (run.state i) (run.act i)) (startPrice : Nat) :
    Standing startPrice (reveals run slot (i + 1) (i + 1)) (productAt run slot (i + 1))
      (payments run slot (i + 1) (i + 1)) := by
  have hnone : reveals run slot (i + 1) (i + 1) = [] := by
    rw [reveals, Nat.sub_self]
    rfl
  have hunpaid : payments run slot (i + 1) (i + 1) = [] := by
    rw [payments, Nat.sub_self]
    rfl
  have hbidder : (productAt run slot (i + 1)).highestBidder = 0 := by
    obtain ⟨paid, _, hmoves⟩ := moves_at run slot (Nat.le_refl i) hi hcreates.2
    have hnew := hcreates.1
    generalize (run.act i).function = function at hmoves hnew
    generalize productAt run slot (i + 1) = product' at hmoves
    cases hmoves with
    | addProductToStore _ _ _ _ _ _ _ _ _ hnobody _ => exact hnobody
    | _ => cases hnew
  rw [hnone, hunpaid]
  refine ⟨fun _ => hbidder, fun hne => absurd rfl hne, fun account => ?_⟩
  rw [Product.held, if_neg fun hheld => hheld.1 hbidder]
  rfl

theorem reveals_revealBid {first k : Nat} (h : first ≤ k)
    (hslot : Chain.slot (run.state k).store (run.act k) = slot) {productId : Uint}
    {amountText secret : Bytes} {bidInfo : Bid}
    (hfunction : (run.act k).function = .revealBid productId amountText secret)
    (hbidInfo : bidInfo = (productAt run slot k).bids.get
      ((run.act k).info.sender, sha3 (amountText ++ secret))) :
    reveals run slot first (k + 1) = reveals run slot first k ++
      [⟨(run.act k).info.sender, sha3 (amountText ++ secret), bidInfo.value.toNat,
        (EcommerceStore.stringToUint amountText).toNat⟩] := by
  have hplace : (run.state k).store.slot productId = slot := by
    rw [← hslot, Chain.slot, hfunction]
  rw [reveals_succ run slot h, if_pos hslot, Chain.revealedBid, hfunction, hbidInfo,
    productAt, ← hplace]
  rfl

/-- The terms of a product are those it was created with. -/
theorem terms_eq (first : Nat) : ∀ k, first ≤ k → k ≤ run.length →
    (∀ j, first ≤ j → j < k → ¬ Chain.creates slot (run.state j) (run.act j)) →
    (productAt run slot k).startPrice = (productAt run slot first).startPrice ∧
      (productAt run slot k).auctionEndTime = (productAt run slot first).auctionEndTime := by
  refine run.induct_from (fun _ => ⟨rfl, rfl⟩) ?_
  intro k hfirst hk ih honly
  obtain ⟨hprice, hend⟩ := ih fun j hj hjk => honly j hj (by omega)
  rw [← hprice, ← hend]
  by_cases hslot : Chain.slot (run.state k).store (run.act k) = slot
  · obtain ⟨paid, _, hmoves⟩ := moves_at run slot hfirst hk hslot
    refine hmoves.frame ?_
    rw [Bool.eq_false_iff]
    exact fun hnew => honly k hfirst (by omega) ⟨hnew, hslot⟩
  · rw [(elsewhere run slot hfirst hk hslot).1]
    exact ⟨rfl, rfl⟩

theorem standing {i : Nat} (hi : i < run.length)
    (hcreates : Chain.creates slot (run.state i) (run.act i)) (startPrice : Nat)
    (hprice : (productAt run slot (i + 1)).startPrice.toNat = startPrice) :
    ∀ k, i + 1 ≤ k → k ≤ run.length →
      (∀ j, i < j → j < k → ¬ Chain.creates slot (run.state j) (run.act j)) →
      (∀ bid ∈ reveals run slot (i + 1) k,
        startPrice ≤ bid.amount ∧ bid.amount ≤ bid.value) →
      (productAt run slot k).status = .open →
      Standing startPrice (reveals run slot (i + 1) k) (productAt run slot k)
        (payments run slot (i + 1) k) := by
  refine run.induct_from ?_ ?_
  · intro _ _ _
    exact standing_created run slot hi hcreates _
  · intro k hik hk ih honly hprices hopen
    have hbefore : ∀ j, i < j → j < k → ¬ Chain.creates slot (run.state j) (run.act j) :=
      fun j hij hjk => honly j hij (by omega)
    by_cases hslot : Chain.slot (run.state k).store (run.act k) = slot
    · obtain ⟨paid, hpayments, hmoves⟩ := moves_at run slot hik hk hslot
      rw [hpayments]
      generalize hfunction : (run.act k).function = function at hmoves
      generalize hproduct : productAt run slot (k + 1) = product' at hmoves hopen
      cases hmoves with
      | addProductToStore =>
          exact absurd ⟨by rw [hfunction]; rfl, hslot⟩ (honly k (by omega) (by omega))
      | bid productId sealedBid hstarted hrunning hfree =>
          have hkept := reveals_kept run slot hik (by unfold Chain.revealedBid; rw [hfunction])
          rw [hkept] at hprices ⊢
          rw [List.append_nil]
          exact (ih hbefore hprices hopen).same rfl rfl rfl
      | revealBid productId amountText secret bidInfo product'' refund paid hended hbidInfo
          hbidder hhidden hrevealed =>
          have hnew := reveals_revealBid run slot hik hslot hfunction hbidInfo
          rw [hnew] at hprices ⊢
          obtain ⟨_, hstatus, _, _⟩ := hrevealed.frame
          have hstanding := ih hbefore
            (fun bid hbid => hprices bid (List.mem_append_left _ hbid))
            (hstatus.symm.trans hopen)
          obtain ⟨hstart, hcovered⟩ := hprices _ (List.mem_append_right _ List.mem_cons_self)
          have hsame := (terms_eq run slot (i + 1) k hik (by omega) hbefore).1
          rw [← hsame] at hprice
          exact (hstanding.reveal hrevealed (run.act k).info.sender_ne hcovered hprice
            hstart).same rfl rfl rfl
      | finalizeAuction productId status paid hended hwas hclosed => exact absurd hopen hclosed
      | releaseAmountToSeller productId =>
          have hkept := reveals_kept run slot hik (by unfold Chain.revealedBid; rw [hfunction])
          rw [hkept] at hprices ⊢
          rw [List.append_nil]
          exact ih hbefore hprices hopen
      | refundAmountToBuyer productId =>
          have hkept := reveals_kept run slot hik (by unfold Chain.revealedBid; rw [hfunction])
          rw [hkept] at hprices ⊢
          rw [List.append_nil]
          exact ih hbefore hprices hopen
    · obtain ⟨hproduct, hreveals, hpayments⟩ := elsewhere run slot hik hk hslot
      rw [hreveals] at hprices ⊢
      rw [hproduct] at hopen ⊢
      rw [hpayments]
      exact ih hbefore hprices hopen

/-! The reveals are those of the stored bids. -/

def RevealedBid.key (bid : RevealedBid) : Address × Bytes32 :=
  (bid.bidder, bid.sealedBid)

/-- No bid is revealed twice, and the revealed ones are stored as revealed. -/
structure Opened (created product : Product) (bids : List RevealedBid) : Prop where
  nodup : (bids.map RevealedBid.key).Nodup
  stored : ∀ bid ∈ bids, (product.bids.get bid.key).bidder ≠ 0 ∧
    (product.bids.get bid.key).revealed = true ∧
    (product.bids.get bid.key).value.toNat = bid.value
  all : ∀ key, (product.bids.get key).revealed = true →
    (created.bids.get key).revealed = true ∨ key ∈ bids.map RevealedBid.key

theorem Opened.bid {created product product' : Product} {bids : List RevealedBid}
    (h : Opened created product bids) {key : Address × Bytes32} {bid : Bid}
    (hfree : (product.bids.get key).bidder = 0) (hhidden : bid.revealed = false)
    (hbids : product'.bids = product.bids.set key bid) : Opened created product' bids := by
  refine ⟨h.nodup, ?_, ?_⟩
  · intro other hmem
    have hne : other.key ≠ key := by
      intro heq
      exact (h.stored other hmem).1 (heq ▸ hfree)
    rw [hbids, Lib.Mapping.get_set_of_ne _ _ hne]
    exact h.stored other hmem
  · intro other hrevealed
    rw [hbids] at hrevealed
    by_cases heq : other = key
    · rw [heq, Lib.Mapping.get_set_self, hhidden] at hrevealed
      cases hrevealed
    · rw [Lib.Mapping.get_set_of_ne _ _ heq] at hrevealed
      exact h.all other hrevealed

theorem Opened.reveal {created product product' : Product} {bids : List RevealedBid}
    (h : Opened created product bids) {bid : RevealedBid} {bidInfo : Bid}
    (hbidInfo : bidInfo = product.bids.get bid.key) (hbidder : bidInfo.bidder ≠ 0)
    (hhidden : bidInfo.revealed = false) (hvalue : bidInfo.value.toNat = bid.value)
    (hbids : product'.bids = product.bids.set bid.key { bidInfo with revealed := true }) :
    Opened created product' (bids ++ [bid]) := by
  have hnew : bid.key ∉ bids.map RevealedBid.key := by
    intro hmem
    obtain ⟨other, hother, heq⟩ := List.mem_map.mp hmem
    have hrevealed := (h.stored other hother).2.1
    rw [heq, ← hbidInfo, hhidden] at hrevealed
    cases hrevealed
  refine ⟨?_, ?_, ?_⟩
  · rw [List.map_append, List.nodup_append]
    refine ⟨h.nodup, List.nodup_singleton _, ?_⟩
    intro key hkey other hother heq
    rw [heq, List.mem_singleton.mp hother] at hkey
    exact hnew hkey
  · intro other hmem
    rw [hbids]
    rcases List.mem_append.mp hmem with hmem | hmem
    · have hne : other.key ≠ bid.key := by
        intro heq
        exact hnew (heq ▸ List.mem_map_of_mem hmem)
      rw [Lib.Mapping.get_set_of_ne _ _ hne]
      exact h.stored other hmem
    · rw [List.mem_singleton.mp hmem, Lib.Mapping.get_set_self]
      exact ⟨hbidder, rfl, hvalue⟩
  · intro key hrevealed
    rw [hbids] at hrevealed
    rw [List.map_append, List.mem_append, ← or_assoc]
    by_cases heq : key = bid.key
    · exact .inr (by simp [heq])
    · rw [Lib.Mapping.get_set_of_ne _ _ heq] at hrevealed
      exact .inl (h.all key hrevealed)

theorem opened (i : Nat) : ∀ k, i + 1 ≤ k → k ≤ run.length →
    (∀ j, i < j → j < k → ¬ Chain.creates slot (run.state j) (run.act j)) →
    Opened (productAt run slot (i + 1)) (productAt run slot k)
      (reveals run slot (i + 1) k) := by
  refine run.induct_from ?_ ?_
  · intro _
    rw [reveals, Nat.sub_self]
    exact ⟨List.nodup_nil, by simp, fun key hrevealed => .inl hrevealed⟩
  · intro k hik hk ih honly
    have hopened := ih fun j hij hjk => honly j hij (by omega)
    by_cases hslot : Chain.slot (run.state k).store (run.act k) = slot
    · obtain ⟨paid, _, hmoves⟩ := moves_at run slot hik hk hslot
      generalize hfunction : (run.act k).function = function at hmoves
      generalize hproduct : productAt run slot (k + 1) = product' at hmoves
      cases hmoves with
      | addProductToStore =>
          exact absurd ⟨by rw [hfunction]; rfl, hslot⟩ (honly k (by omega) (by omega))
      | bid productId sealedBid hstarted hrunning hfree =>
          rw [reveals_kept run slot hik (by unfold Chain.revealedBid; rw [hfunction])]
          exact hopened.bid hfree rfl rfl
      | revealBid productId amountText secret bidInfo product'' refund paid hended hbidInfo
          hbidder hhidden hrevealed =>
          rw [reveals_revealBid run slot hik hslot hfunction hbidInfo]
          exact hopened.reveal hbidInfo hbidder hhidden rfl (by rw [hrevealed.frame.1]; rfl)
      | finalizeAuction productId status paid hended hwas hclosed =>
          rw [reveals_kept run slot hik (by unfold Chain.revealedBid; rw [hfunction])]
          exact ⟨hopened.nodup, hopened.stored, hopened.all⟩
      | releaseAmountToSeller productId =>
          rw [reveals_kept run slot hik (by unfold Chain.revealedBid; rw [hfunction])]
          exact hopened
      | refundAmountToBuyer productId =>
          rw [reveals_kept run slot hik (by unfold Chain.revealedBid; rw [hfunction])]
          exact hopened
    · obtain ⟨hproduct, hreveals, _⟩ := elsewhere run slot hik hk hslot
      rw [hproduct, hreveals]
      exact hopened

theorem values_perm {bids bids' : List RevealedBid} (h : bids.Perm bids')
    (account : Address) : values bids account = values bids' account :=
  ((h.filter _).map _).sum_eq

/-- The outcome of the revealed `bids`, in the order in which they were revealed. -/
structure Outcome (startPrice : Nat) (bids order : List RevealedBid) (product : Product)
    (payments : List (Address × Uint)) : Prop where
  highest_mem : ∃ bid ∈ bids, bid.amount = product.highestBid.toNat
  le_highest : ∀ bid ∈ bids, bid.amount ≤ product.highestBid.toNat
  topTwo : Lib.TopTwo (startPrice :: bids.map (·.amount)) product.highestBid.toNat
    product.secondHighestBid.toNat
  order_free : ∀ top second, Lib.TopTwo (startPrice :: bids.map (·.amount)) top second →
    product.highestBid.toNat = top ∧ product.secondHighestBid.toNat = second
  winner : ∃ front winner back, order = front ++ winner :: back ∧
    winner.bidder = product.highestBidder ∧ winner.amount = product.highestBid.toNat ∧
    ∀ bid ∈ front, bid.amount < product.highestBid.toNat
  paid : ∀ account, received payments account +
    (if account = product.highestBidder then product.highestBid.toNat else 0) =
      values bids account

/-- What comes of the bids of a product that are revealed before it is finalized. -/
theorem second_price {i k : Nat} (hik : i < k) (hk : k ≤ run.length)
    (hcreates : Chain.creates slot (run.state i) (run.act i))
    (honly : ∀ j, i < j → j < k → ¬ Chain.creates slot (run.state j) (run.act j))
    (hopen : (productAt run slot k).status = .open) {bids : List RevealedBid}
    (hbids : (reveals run slot (i + 1) k).Perm bids) (hne : bids ≠ [])
    (hprices : ∀ bid ∈ bids, (productAt run slot k).startPrice.toNat ≤ bid.amount ∧
      bid.amount ≤ bid.value) :
    Opened (productAt run slot (i + 1)) (productAt run slot k) bids ∧
      Outcome (productAt run slot k).startPrice.toNat bids (reveals run slot (i + 1) k)
        (productAt run slot k) (payments run slot (i + 1) k) := by
  have hi : i < run.length := Nat.lt_of_lt_of_le hik hk
  have hopened := opened run slot i k hik hk honly
  have hstart := (terms_eq run slot (i + 1) k hik hk honly).1
  generalize hstartPrice : (productAt run slot k).startPrice.toNat = startPrice at hprices ⊢
  have hstanding := standing run slot hi hcreates startPrice (by rw [← hstart, hstartPrice]) k
    hik hk honly (fun bid hbid => hprices bid (hbids.mem_iff.mp hbid)) hopen
  have hsome : reveals run slot (i + 1) k ≠ [] := by
    intro hnil
    rw [hnil] at hbids
    exact hne hbids.symm.eq_nil
  have hleads := hstanding.leads hsome
  have hamounts : (startPrice :: bids.map (·.amount)).Perm
      (startPrice :: (reveals run slot (i + 1) k).map (·.amount)) :=
    (hbids.symm.map _).cons _
  have htopTwo := hleads.topTwo.perm hamounts
  obtain ⟨front, winner, back, horder, hbidder, hamount, hfront⟩ := hleads.first
  refine ⟨⟨?_, ?_, ?_⟩, ⟨?_, ?_, htopTwo, ?_, ?_, ?_⟩⟩
  · exact (hbids.map _).nodup_iff.mp hopened.nodup
  · intro bid hbid
    exact hopened.stored bid (hbids.mem_iff.mpr hbid)
  · intro key hrevealed
    rw [← (hbids.map _).mem_iff]
    exact hopened.all key hrevealed
  · refine ⟨winner, hbids.mem_iff.mp ?_, hamount⟩
    rw [horder]
    simp
  · intro bid hbid
    exact htopTwo.le_top (List.mem_cons_of_mem _ (List.mem_map_of_mem hbid))
  · intro top second hother
    exact htopTwo.unique hother (List.Perm.refl _)
  · exact ⟨front, winner, back, horder, hbidder, hamount, hfront⟩
  · intro account
    have hpaid := hstanding.paid account
    rw [Product.held_eq hleads.bidder_ne] at hpaid
    rw [← values_perm hbids]
    simpa [eq_comm] using hpaid

end Runs

section Tie

/-! Account 2 bids 20 and 25, and account 3 bids 25 too. -/

def tieActs : List Call :=
  [⟨⟨1, 0, 10, fun _ => true, one_ne⟩, .addProductToStore [] [] [] [] 10 20 5 0⟩,
    ⟨⟨2, 30, 15, fun _ => true, two_ne⟩, .bid 1 (packed "20a".toUTF8.toList)⟩,
    ⟨⟨3, 25, 16, fun _ => true, three_ne⟩, .bid 1 (packed "25b".toUTF8.toList)⟩,
    ⟨⟨2, 26, 17, fun _ => true, two_ne⟩, .bid 1 (packed "25c".toUTF8.toList)⟩,
    ⟨⟨2, 0, 21, fun _ => true, two_ne⟩, .revealBid 1 "20".toUTF8.toList "a".toUTF8.toList⟩,
    ⟨⟨3, 0, 22, fun _ => true, three_ne⟩, .revealBid 1 "25".toUTF8.toList "b".toUTF8.toList⟩,
    ⟨⟨2, 0, 23, fun _ => true, two_ne⟩, .revealBid 1 "25".toUTF8.toList "c".toUTF8.toList⟩]

theorem tieActs_exec : (Lib.exec (Chain.step packed) Chain.create tieActs).isSome := by
  decide +kernel

def tieRun : ChainRun packed := .ofActions tieActs tieActs_exec

def tieBids : List RevealedBid :=
  [⟨2, packed "25c".toUTF8.toList, 26, 25⟩, ⟨3, packed "25b".toUTF8.toList, 25, 25⟩,
    ⟨2, packed "20a".toUTF8.toList, 30, 20⟩]

theorem tie_created : ∀ j, j < 7 → 0 < j →
    ¬ Chain.creates (1, 1) (tieRun.state j) (tieRun.act j) := by
  decide +kernel

theorem second_price_tie :
    Outcome (productAt tieRun (1, 1) 7).startPrice.toNat tieBids (reveals tieRun (1, 1) 1 7)
      (productAt tieRun (1, 1) 7) (payments tieRun (1, 1) 1 7) ∧
    (productAt tieRun (1, 1) 7).highestBidder = 3 :=
  ⟨(second_price tieRun (1, 1) (by decide) (Nat.le_refl 7) (by decide +kernel)
    (fun j hj hlast => tie_created j hlast hj) (by decide +kernel) (by decide +kernel)
    (by decide +kernel) (by decide +kernel)).2, by decide +kernel⟩

end Tie

end BlockchainTutorial.Auction
