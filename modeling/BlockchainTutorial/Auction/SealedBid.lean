import BlockchainTutorial.Auction.Solvency

namespace BlockchainTutorial.Auction

/-! What a sealed bid fixes. `sha3` is taken of the amount and the secret in one text,
so that the text can be split in several ways. -/

/-- The digits that `stringToUint` does not read as nothing. -/
def Counts (b : UInt8) : Prop := 49 ≤ b ∧ b ≤ 57

instance (b : UInt8) : Decidable (Counts b) := inferInstanceAs (Decidable (_ ∧ _))

namespace EcommerceStore

def readByte (result : Uint) (b : UInt8) : Uint :=
  if 48 ≤ b ∧ b ≤ 57 then result * 10 + (BitVec.ofNat 256 b.toNat - 48) else result

theorem stringToUint_eq (s : Bytes) : stringToUint s = s.foldl readByte 0 := rfl

theorem readByte_zero {b : UInt8} (h : ¬ Counts b) : readByte 0 b = 0 := by
  unfold readByte
  split
  · rename_i hdigit
    have hzero : b = 48 := by
      refine UInt8.le_antisymm ?_ hdigit.1
      have hlow : ¬ 49 ≤ b := fun hlow => h ⟨hlow, hdigit.2⟩
      have hlow : b.toNat < 49 := Nat.lt_of_not_le hlow
      exact Nat.le_of_lt_succ hlow
    subst hzero
    decide
  · rfl

theorem stringToUint_eq_zero {s : Bytes} (h : ∀ b ∈ s, ¬ Counts b) : stringToUint s = 0 := by
  rw [stringToUint_eq]
  induction s with
  | nil => rfl
  | cons b s ih =>
      rw [List.foldl_cons, readByte_zero (h b List.mem_cons_self)]
      exact ih fun c hc => h c (List.mem_cons_of_mem _ hc)

theorem readByte_ne_zero {b : UInt8} (h : Counts b) : readByte 0 b ≠ 0 := by
  have hlow : 49 ≤ b.toNat := h.1
  have hhigh : b.toNat ≤ 57 := h.2
  have hdigit : 48 ≤ b ∧ b ≤ 57 := by
    refine ⟨?_, h.2⟩
    show 48 ≤ b.toNat
    omega
  have hzero : (0 : Uint) * 10 = 0 := rfl
  rw [readByte, if_pos hdigit, hzero]
  bv_omega

/-- A text with a digit has a front that is read as a number other than zero. -/
theorem exists_split {text : Bytes} (h : ∃ b ∈ text, Counts b) :
    ∃ front back, text = front ++ back ∧ stringToUint front ≠ 0 := by
  induction text with
  | nil =>
      obtain ⟨b, hmem, _⟩ := h
      cases hmem
  | cons b text ih =>
      by_cases hb : Counts b
      · exact ⟨[b], text, rfl, readByte_ne_zero hb⟩
      · obtain ⟨c, hmem, hc⟩ := h
        rcases List.mem_cons.mp hmem with rfl | hmem
        · exact absurd hc hb
        · obtain ⟨front, back, rfl, hfront⟩ := ih ⟨c, hmem, hc⟩
          refine ⟨b :: front, back, rfl, ?_⟩
          rwa [stringToUint_eq, List.foldl_cons, readByte_zero hb, ← stringToUint_eq]

theorem transfer_isOk {store : EcommerceStore} {call : CallInfo} {n : Nat}
    {receiver : Address} {amount : Uint} (haccepts : call.accepts n = true)
    (hfunds : amount.toNat ≤ store.balance) :
    store.transfer call n receiver amount = .ok { store with
      balance := store.balance - amount.toNat
      transfers := store.transfers ++ [(receiver, amount)] } :=
  if_pos ⟨hfunds, haccepts⟩

/-- The bid itself pays the one that it outbids when the product does not. -/
theorem revealed_isOk {store : EcommerceStore} {call : CallInfo} {product : Product}
    {bidInfo : Bid} (amount : Uint) (haccepts : ∀ n, call.accepts n = true)
    (hfunds : bidInfo.value.toNat + product.openBid ≤ store.balance) :
    ∃ store' product' refund,
      store.revealed call product bidInfo amount = .ok (store', product', refund) ∧
        refund.toNat ≤ store'.balance := by
  unfold revealed
  split
  · exact ⟨_, _, _, rfl, by omega⟩
  · rename_i hcovered
    have hcovered : amount.toNat ≤ bidInfo.value.toNat := BitVec.not_lt.mp hcovered
    have hrest : (bidInfo.value - amount).toNat + amount.toNat = bidInfo.value.toNat := by
      bv_omega
    split
    · exact ⟨_, _, _, rfl, by omega⟩
    · rename_i hnext
      split
      · rename_i hhigher
        have hhigher : product.highestBid.toNat < amount.toNat := hhigher
        have hpaid : product.highestBid.toNat + (bidInfo.value - amount).toNat ≤
            store.balance := by
          by_cases hopen : product.status = .open
          · rw [Product.openBid_of_open hopen hnext] at hfunds
            omega
          · omega
        rw [transfer_isOk (haccepts 0) (by omega)]
        refine ⟨_, _, _, rfl, ?_⟩
        dsimp only
        omega
      · split
        · exact ⟨_, _, _, rfl, by omega⟩
        · exact ⟨_, _, _, rfl, by omega⟩

/-- With enough ether a hidden bid can be revealed. -/
theorem revealBid_isOk {sha3 : Bytes → Bytes32} {store : EcommerceStore} (call : CallInfo)
    {productId : Uint} {amountText secret : Bytes} {bidInfo : Bid}
    (hvalue : call.value = 0) (haccepts : ∀ n, call.accepts n = true)
    (hended : (store.stores.get (store.slot productId)).auctionEndTime ≤ call.now)
    (hbidInfo : (store.stores.get (store.slot productId)).bids.get
      (call.sender, sha3 (amountText ++ secret)) = bidInfo)
    (hbidder : bidInfo.bidder ≠ 0) (hhidden : bidInfo.revealed = false)
    (hfunds : bidInfo.value.toNat + (store.stores.get (store.slot productId)).openBid ≤
      store.balance) :
    ∃ store', store.revealBid sha3 call productId amountText secret = .ok store' := by
  have hexists : 0 < bidInfo.bidder := by bv_omega
  obtain ⟨paid, product, refund, hrevealed, hrefund⟩ :=
    revealed_isOk (stringToUint amountText) haccepts hfunds
  have hok {α β : Type} (a : α) (g : α → Except String β) : Except.ok a >>= g = g a := rfl
  simp only [revealBid, hvalue, hended, hbidInfo, hexists, hhidden, decide_true, require,
    if_true, hok, hrevealed]
  split
  · exact ⟨_, transfer_isOk (haccepts 1) hrefund⟩
  · exact ⟨_, rfl⟩

end EcommerceStore

section Runs

variable {sha3 : Bytes → Bytes32}

/-- A bid is stored under the account that placed it. -/
def Signed (chain : Chain) : Prop :=
  ∀ slot key, ((chain.store.stores.get slot).bids.get key).bidder ≠ 0 →
    ((chain.store.stores.get slot).bids.get key).bidder = key.1

theorem run_signed (run : ChainRun sha3) : ∀ k, k ≤ run.length → Signed (run.state k) := by
  refine run.invariant ?_ ?_
  · intro slot key hbidder
    exact absurd rfl hbidder
  · rintro chain ⟨info, function⟩ ⟨store', time⟩ h hstep slot key
    have hran := Chain.step_ran hstep
    dsimp only at hran
    by_cases hslot : slot = Chain.slot chain.store ⟨info, function⟩
    · subst hslot
      unfold Chain.slot
      cases hran with
      | addProductToStore =>
          dsimp only
          rw [Lib.Mapping.get_set_self]
          exact h _ key
      | bid productId sealedBid store' hbids =>
          rw [hbids.eq]
          dsimp only
          rw [Lib.Mapping.get_set_self]
          by_cases hkey : key = (info.sender, sealedBid)
          · subst hkey
            rw [Lib.Mapping.get_set_self]
            exact fun _ => rfl
          · rw [Lib.Mapping.get_set_of_ne _ _ hkey]
            exact h _ key
      | revealBid productId amountText secret store' bidInfo product' refund paid hreveals =>
          obtain ⟨_, _, heq⟩ := hreveals.eq
          rw [heq]
          dsimp only
          rw [Lib.Mapping.get_set_self]
          dsimp only
          rw [hreveals.revealed.frame.1]
          by_cases hkey : key = (info.sender, sha3 (amountText ++ secret))
          · subst hkey
            rw [Lib.Mapping.get_set_self]
            have hbidInfo := h (chain.store.slot productId)
              (info.sender, sha3 (amountText ++ secret))
            rw [← hreveals.bidInfo_eq] at hbidInfo
            exact hbidInfo
          · rw [Lib.Mapping.get_set_of_ne _ _ hkey]
            exact h _ key
      | finalizeAuction productId store' hended hopen hfinalized =>
          cases hfinalized with
          | unsold =>
              dsimp only [EcommerceStore.setProduct]
              rw [Lib.Mapping.get_set_self]
              exact h _ key
          | sold =>
              dsimp only
              rw [Lib.Mapping.get_set_self]
              exact h _ key
      | releaseAmountToSeller => exact h _ key
      | refundAmountToBuyer => exact h _ key
    · dsimp only
      rw [hran.others hslot]
      exact h slot key

theorem funds_le (run : ChainRun sha3) {k : Nat} (hk : k ≤ run.length)
    (slot : Address × Uint) (key : Address × Bytes32) :
    (((run.state k).store.stores.get slot).bids.get key).unrevealed +
        ((run.state k).store.stores.get slot).openBid ≤ (run.state k).store.balance := by
  generalize hproduct : (run.state k).store.stores.get slot = product
  have howed : product.owed ≤ (run.state k).store.owed := by
    rw [← hproduct]
    exact Lib.Mapping.le_total (fun _ (product : Product) => product.owed) _ slot
      Product.owed_default
  have hbid : (product.bids.get key).unrevealed ≤ product.unrevealedBids :=
    Lib.Mapping.le_total (fun _ (bid : Bid) => bid.unrevealed) product.bids key rfl
  have hbalance := balance_eq run k hk
  unfold Product.owed at howed
  omega

/-- Some call of the bidder reveals the sealed bid with this amount and secret. -/
def Accepts (sha3 : Bytes → Bytes32) (store : EcommerceStore) (productId : Uint)
    (bidder : Address) (sealedBid : Bytes32) (amountText secret : Bytes) : Prop :=
  sha3 (amountText ++ secret) = sealedBid ∧ ∃ call store', call.sender = bidder ∧
    store.revealBid sha3 call productId amountText secret = .ok store'

/-- All that the sealed bid can be revealed with is read as one amount. -/
def Binds (sha3 : Bytes → Bytes32) (store : EcommerceStore) (productId : Uint)
    (bidder : Address) (sealedBid : Bytes32) : Prop :=
  ∀ amountText secret amountText' secret',
    Accepts sha3 store productId bidder sealedBid amountText secret →
    Accepts sha3 store productId bidder sealedBid amountText' secret' →
    EcommerceStore.stringToUint amountText = EcommerceStore.stringToUint amountText'

theorem accepts_of_hidden (run : ChainRun sha3) {k : Nat} (hk : k ≤ run.length)
    {productId : Uint} {bidder : Address} (amountText secret : Bytes)
    (hbidder : (((run.state k).store.stores.get ((run.state k).store.slot productId)).bids.get
      (bidder, sha3 (amountText ++ secret))).bidder ≠ 0)
    (hhidden : (((run.state k).store.stores.get ((run.state k).store.slot productId)).bids.get
      (bidder, sha3 (amountText ++ secret))).revealed = false) :
    Accepts sha3 (run.state k).store productId bidder (sha3 (amountText ++ secret))
      amountText secret := by
  have hsigned := run_signed run k hk _ _ hbidder
  have hfunds := funds_le run hk ((run.state k).store.slot productId)
    (bidder, sha3 (amountText ++ secret))
  rw [Bid.unrevealed, if_pos ⟨hbidder, hhidden⟩] at hfunds
  have hsender : bidder ≠ 0 := by
    intro hzero
    rw [hzero] at hsigned hbidder
    exact hbidder hsigned
  obtain ⟨store', hreveal⟩ := EcommerceStore.revealBid_isOk
    ⟨bidder, 0, _, fun _ => true, hsender⟩ rfl (fun _ => rfl) (BitVec.le_refl _) rfl hbidder
    hhidden hfunds
  exact ⟨rfl, _, store', rfl, hreveal⟩

theorem Accepts.hidden {store : EcommerceStore} {productId : Uint} {bidder : Address}
    {sealedBid : Bytes32} {amountText secret : Bytes}
    (h : Accepts sha3 store productId bidder sealedBid amountText secret) :
    ((store.stores.get (store.slot productId)).bids.get (bidder, sealedBid)).revealed =
      false := by
  obtain ⟨rfl, call, store', rfl, hreveal⟩ := h
  obtain ⟨bidInfo, product', refund, paid, hreveals⟩ := EcommerceStore.revealBid_eq_ok hreveal
  rw [← hreveals.bidInfo_eq]
  exact hreveals.hidden

/-- A sealed bid fixes its amount exactly when it is revealed already, or no text that
hashes to it has a digit other than zero. -/
theorem binds_iff (run : ChainRun sha3) {k : Nat} (hk : k ≤ run.length) (productId : Uint)
    (bidder : Address) (sealedBid : Bytes32)
    (hbidder : (((run.state k).store.stores.get ((run.state k).store.slot productId)).bids.get
      (bidder, sealedBid)).bidder ≠ 0) :
    Binds sha3 (run.state k).store productId bidder sealedBid ↔
      (((run.state k).store.stores.get ((run.state k).store.slot productId)).bids.get
        (bidder, sealedBid)).revealed = true ∨
      ∀ text, sha3 text = sealedBid → ∀ b ∈ text, ¬ Counts b := by
  constructor
  · intro hbinds
    by_contra hneither
    rw [not_or, Bool.not_eq_true] at hneither
    obtain ⟨hhidden, hdigits⟩ := hneither
    push Not at hdigits
    obtain ⟨text, rfl, b, hmem, hb⟩ := hdigits
    obtain ⟨front, back, rfl, hfront⟩ := EcommerceStore.exists_split ⟨b, hmem, hb⟩
    have hwhole : Accepts sha3 (run.state k).store productId bidder (sha3 (front ++ back))
        [] (front ++ back) :=
      accepts_of_hidden run hk [] (front ++ back) hbidder hhidden
    exact hfront (hbinds front back [] (front ++ back)
      (accepts_of_hidden run hk front back hbidder hhidden) hwhole)
  · rintro (hrevealed | hdigits) amountText secret amountText' secret' h h'
    · rw [h.hidden] at hrevealed
      cases hrevealed
    · have hzero {amountText secret : Bytes}
          (h : Accepts sha3 (run.state k).store productId bidder sealedBid amountText secret) :
          EcommerceStore.stringToUint amountText = 0 :=
        EcommerceStore.stringToUint_eq_zero fun b hb =>
          hdigits _ h.1 b (List.mem_append_left _ hb)
      rw [hzero h, hzero h']

end Runs

section Split

/-! A hash of short texts without collisions, and a bid that is read as 1 and as 10. -/

def number (text : Bytes) : Nat :=
  text.foldr (fun b n => 256 * n + b.toNat) 1

def sealText (text : Bytes) : Bytes32 :=
  text.foldr (fun b word => 256 * word + BitVec.ofNat 256 b.toNat) 1

theorem number_nil : number [] = 1 := rfl

theorem number_cons (b : UInt8) (text : Bytes) :
    number (b :: text) = 256 * number text + b.toNat := rfl

theorem number_pos (text : Bytes) : 0 < number text := by
  induction text with
  | nil => decide
  | cons b text ih =>
      rw [number_cons]
      omega

theorem number_lt (text : Bytes) : number text < 2 * 256 ^ text.length := by
  induction text with
  | nil => decide
  | cons b text ih =>
      have hb := b.toNat_lt
      rw [number_cons, List.length_cons, Nat.pow_succ]
      omega

theorem number_injective {text text' : Bytes} (h : number text = number text') :
    text = text' := by
  induction text generalizing text' with
  | nil =>
      cases text' with
      | nil => rfl
      | cons b' text' =>
          have hpos := number_pos text'
          rw [number_nil, number_cons] at h
          omega
  | cons b text ih =>
      have hpos := number_pos text
      rw [number_cons] at h
      cases text' with
      | nil =>
          rw [number_nil] at h
          omega
      | cons b' text' =>
          have hb := b.toNat_lt
          have hb' := b'.toNat_lt
          rw [number_cons] at h
          have hbyte : b = b' := UInt8.toNat_inj.mp (by omega)
          have htail : text = text' := ih (by omega)
          rw [hbyte, htail]

theorem toNat_sealText (text : Bytes) : (sealText text).toNat = number text % 2 ^ 256 := by
  induction text with
  | nil => rfl
  | cons b text ih =>
      have hb := b.toNat_lt
      have hseal : sealText (b :: text) = 256 * sealText text + BitVec.ofNat 256 b.toNat := rfl
      have hbase : (256 : Bytes32).toNat = 256 := rfl
      rw [hseal, number_cons, BitVec.toNat_add, BitVec.toNat_mul, ih, hbase,
        BitVec.toNat_ofNat]
      omega

theorem sealText_injOn : Set.InjOn sealText {text | text.length < 32} := by
  have hnumber {text : Bytes} (htext : text.length < 32) :
      (sealText text).toNat = number text := by
    have hlt := number_lt text
    have hpow : 256 ^ text.length ≤ 256 ^ 31 := Nat.pow_le_pow_right (by decide) (by omega)
    have hmod : number text < 2 ^ 256 := by
      calc number text
        _ < 2 * 256 ^ text.length := hlt
        _ ≤ 2 * 256 ^ 31 := Nat.mul_le_mul_left 2 hpow
        _ ≤ 2 ^ 256 := by decide
    rw [toNat_sealText, Nat.mod_eq_of_lt hmod]
  intro text htext text' htext' h
  refine number_injective ?_
  rw [← hnumber htext, ← hnumber htext', h]

/-- The text "10x" is a 1 with the secret "0x", and a 10 with the secret "x". -/
def sealActs : List Call :=
  [⟨⟨1, 0, 10, fun _ => true, one_ne⟩, .addProductToStore [] [] [] [] 10 20 5 0⟩,
    ⟨⟨2, 30, 15, fun _ => true, two_ne⟩, .bid 1 (sealText [49, 48, 120])⟩]

theorem sealActs_exec : (Lib.exec (Chain.step sealText) Chain.create sealActs).isSome := by
  decide +kernel

def sealRun : ChainRun sealText := .ofActions sealActs sealActs_exec

theorem binds_iff_digits :
    ¬ Binds sealText (sealRun.state 2).store 1 2 (sealText [49, 48, 120]) := by
  rw [binds_iff sealRun (Nat.le_refl 2) 1 2 _ (by decide +kernel), not_or]
  refine ⟨by decide +kernel, ?_⟩
  intro hdigits
  exact hdigits _ rfl 49 (by decide) (by decide)

theorem seals_two_amounts : ¬ ∀ sha3 : Bytes → Bytes32,
    Set.InjOn sha3 {text | text.length < 32} → ∀ (run : ChainRun sha3) (k : Nat),
      k ≤ run.length → ∀ (productId : Uint) (bidder : Address) (sealedBid : Bytes32),
        (((run.state k).store.stores.get ((run.state k).store.slot productId)).bids.get
          (bidder, sealedBid)).bidder ≠ 0 →
        Binds sha3 (run.state k).store productId bidder sealedBid := by
  intro hall
  have hbinds := hall sealText sealText_injOn sealRun 2 (Nat.le_refl 2) 1 2
    (sealText [49, 48, 120]) (by decide +kernel)
  have hone : Accepts sealText (sealRun.state 2).store 1 2 (sealText ([49] ++ [48, 120]))
      [49] [48, 120] :=
    accepts_of_hidden sealRun (Nat.le_refl 2) _ _ (by decide +kernel) (by decide +kernel)
  have hten : Accepts sealText (sealRun.state 2).store 1 2 (sealText ([49, 48] ++ [120]))
      [49, 48] [120] :=
    accepts_of_hidden sealRun (Nat.le_refl 2) _ _ (by decide +kernel) (by decide +kernel)
  exact absurd (hbinds [49] [48, 120] [49, 48] [120] hone hten) (by decide)

end Split

end BlockchainTutorial.Auction
