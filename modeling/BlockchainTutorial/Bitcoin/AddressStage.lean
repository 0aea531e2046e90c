import Mathlib.Algebra.Order.BigOperators.Group.List
import Mathlib.Algebra.Order.Ring.Int
import Mathlib.Data.List.Induction
import BlockchainTutorial.Bitcoin.Amounts
import BlockchainTutorial.Bitcoin.Unspent

namespace BlockchainTutorial.Bitcoin.AddressStage

/-! `05-地址/src/blockchain.go`: the balance of a key before there was a chainstate.
Transactions, inputs and outputs are as in the last stage. A chain is the transactions
of its blocks, the newest first. -/

abbrev Chain := List (List Transaction)

/-- The two variables of `FindUnspentTransactions`. A nil slice in the map is an empty
one. -/
structure Search where
  unspentTXs : List Transaction
  spentTXOs : Lib.Mapping Bytes (List Int)

namespace Search

def output (pubKeyHash : Bytes) (tx : Transaction) (search : Search)
    (entry : TXOutput × Nat) : Search :=
  if (entry.2 : Int) ∈ search.spentTXOs.get tx.id then search
  else if entry.1.isLockedWithKey pubKeyHash then
    { search with unspentTXs := search.unspentTXs ++ [tx] }
  else search

def input (crypto : Crypto) (pubKeyHash : Bytes) (search : Search) (vin : TXInput) : Search :=
  if vin.usesKey crypto pubKeyHash then
    { search with spentTXOs :=
        search.spentTXOs.set vin.txid (search.spentTXOs.get vin.txid ++ [vin.vout]) }
  else search

def transaction (crypto : Crypto) (pubKeyHash : Bytes) (search : Search)
    (tx : Transaction) : Search :=
  let search := tx.vout.zipIdx.foldl (output pubKeyHash tx) search
  if tx.isCoinbase then search else tx.vin.foldl (input crypto pubKeyHash) search

def block (crypto : Crypto) (pubKeyHash : Bytes) (search : Search)
    (txs : List Transaction) : Search :=
  txs.foldl (transaction crypto pubKeyHash) search

end Search

def findUnspentTransactions (crypto : Crypto) (chain : Chain) (pubKeyHash : Bytes) :
    List Transaction :=
  (chain.foldl (Search.block crypto pubKeyHash) ⟨[], ∅⟩).unspentTXs

def findUTXO (crypto : Crypto) (chain : Chain) (pubKeyHash : Bytes) : List TXOutput :=
  (findUnspentTransactions crypto chain pubKeyHash).flatMap fun tx =>
    tx.vout.filter (·.isLockedWithKey pubKeyHash)

/-- The two loops under the label `Work`, over the outputs of all transactions, each with
its ID. -/
def work (pubKeyHash : Bytes) (amount : Int) : Int → Lib.Mapping Bytes (List Nat) →
    List (Bytes × TXOutput × Nat) → Int × Lib.Mapping Bytes (List Nat)
  | accumulated, unspentOutputs, [] => (accumulated, unspentOutputs)
  | accumulated, unspentOutputs, (txID, out, outIdx) :: rest =>
      if out.isLockedWithKey pubKeyHash ∧ accumulated < amount then
        let accumulated := addInt accumulated out.value
        let unspentOutputs :=
          unspentOutputs.set txID (unspentOutputs.get txID ++ [outIdx])
        if amount ≤ accumulated then (accumulated, unspentOutputs)
        else work pubKeyHash amount accumulated unspentOutputs rest
      else work pubKeyHash amount accumulated unspentOutputs rest

def outputsOf (txs : List Transaction) : List (Bytes × TXOutput × Nat) :=
  txs.flatMap fun tx => tx.vout.zipIdx.map (tx.id, ·)

def findSpendableOutputs (crypto : Crypto) (chain : Chain) (pubKeyHash : Bytes)
    (amount : Int) : Int × Lib.Mapping Bytes (List Nat) :=
  work pubKeyHash amount 0 ∅ (outputsOf (findUnspentTransactions crypto chain pubKeyHash))

/-! What they should find. -/

/-- The outputs of a transaction that a key locks, each with its index. -/
def locked (pubKeyHash : Bytes) (tx : Transaction) : List (TXOutput × Nat) :=
  tx.vout.zipIdx.filter fun entry => entry.1.isLockedWithKey pubKeyHash

/-- Those whose index is not among the spent ones. -/
def unspentLocked (pubKeyHash : Bytes) (spent : List Int) (tx : Transaction) :
    List (TXOutput × Nat) :=
  (locked pubKeyHash tx).filter fun entry => (entry.2 : Int) ∉ spent

/-- The outputs of a chain that a key locks and no input names. -/
def balance (chain : Chain) (pubKeyHash : Bytes) : List (Bytes × TXOutput × Nat) :=
  chain.flatten.flatMap fun tx =>
    (unspentLocked pubKeyHash (named (inputs chain.flatten) tx.id) tx).map (tx.id, ·)

/-- Each input names an output of an earlier block that no other input names, and
carries its key. -/
structure Chained (crypto : Crypto) (chain : Chain) : Prop where
  distinct : (chain.flatten.map (·.id)).Nodup
  names : ∀ newer block older, chain = newer ++ block :: older → ∀ vin ∈ inputs block,
    ∃ prev ∈ older.flatten, prev.id = vin.txid ∧ ∃ out,
      outputAt prev.vout vin.vout = some out ∧ hashPubKey crypto vin.pubKey = out.pubKeyHash
  once : ((inputs chain.flatten).map outpoint).Nodup

/-- The picked outputs are unspent ones of the key, no two the same, and add up. -/
def SelectsRight (crypto : Crypto) (chain : Chain) (pubKeyHash : Bytes) (amount : Int) : Prop :=
  ∃ picks : List (Bytes × TXOutput × Nat),
    (∀ id, (findSpendableOutputs crypto chain pubKeyHash amount).2.get id =
      (picks.filter fun pick => pick.1 = id).map (·.2.2)) ∧
    (picks.map fun pick => (pick.1, pick.2.2)).Nodup ∧
    (∀ pick ∈ picks, pick ∈ balance chain pubKeyHash) ∧
    (findSpendableOutputs crypto chain pubKeyHash amount).1 =
      (picks.map fun pick => pick.2.1.value).sum

structure BalanceRight (crypto : Crypto) (chain : Chain) (pubKeyHash : Bytes) : Prop where
  utxo : (findUTXO crypto chain pubKeyHash).Perm
    ((balance chain pubKeyHash).map fun entry => entry.2.1)
  spendable : ∀ amount, IsInt amount → SelectsRight crypto chain pubKeyHash amount

/-- A transaction with an unspent output of the key has no second output of the key. -/
def NoSecond (chain : Chain) (pubKeyHash : Bytes) : Prop :=
  ∀ tx ∈ chain.flatten,
    ∀ entry ∈ unspentLocked pubKeyHash (named (inputs chain.flatten) tx.id) tx,
      ∀ other ∈ locked pubKeyHash tx, other = entry

def total (entries : List (Bytes × TXOutput × Nat)) : Int :=
  (entries.map fun entry => entry.2.1.value).sum

/-- The first unspent outputs of the key that reach an amount. -/
def needed (chain : Chain) (pubKeyHash : Bytes) (amount : Int) :
    List (Bytes × TXOutput × Nat) :=
  reach (fun entry => entry.2.1.value) amount 0 (balance chain pubKeyHash)

/-- Whatever the amount, they add up to an `int`. -/
def SumsFit (chain : Chain) (pubKeyHash : Bytes) : Prop :=
  ∀ amount, IsInt amount → IsInt (total (needed chain pubKeyHash amount))

theorem sumsFit_of_total {chain : Chain} {pubKeyHash : Bytes}
    (hvalues : ∀ entry ∈ balance chain pubKeyHash, 0 ≤ entry.2.1.value)
    (htotal : IsInt (total (balance chain pubKeyHash))) : SumsFit chain pubKeyHash := by
  intro amount _
  have hsub : ((needed chain pubKeyHash amount).map fun entry => entry.2.1.value).Sublist
      ((balance chain pubKeyHash).map fun entry => entry.2.1.value) :=
    (reach_starts _ _ _ _).sublist.map _
  have hnonneg := List.forall_mem_map.mpr hvalues
  have hlow := List.sum_nonneg fun n hn => hnonneg n (hsub.subset hn)
  have hhigh := hsub.sum_le_sum hnonneg
  exact ⟨Int.le_trans (by decide) hlow, Int.lt_of_le_of_lt hhigh htotal.2⟩

/-! The scan. -/

namespace Search

variable {crypto : Crypto} {pubKeyHash : Bytes}

theorem outputs_eq (tx : Transaction) (search : Search) (entries : List (TXOutput × Nat)) :
    entries.foldl (output pubKeyHash tx) search =
      ⟨search.unspentTXs ++ List.replicate
        ((entries.filter fun entry => entry.1.isLockedWithKey pubKeyHash).filter
          fun entry => (entry.2 : Int) ∉ search.spentTXOs.get tx.id).length tx,
        search.spentTXOs⟩ := by
  induction entries generalizing search with
  | nil => simp
  | cons entry entries ih =>
      rw [List.foldl_cons, ih, output]
      by_cases hspent : (entry.2 : Int) ∈ search.spentTXOs.get tx.id
      · by_cases hlocked : entry.1.isLockedWithKey pubKeyHash = true
        · simp [hspent, hlocked]
        · simp [hspent, hlocked]
      · by_cases hlocked : entry.1.isLockedWithKey pubKeyHash = true
        · simp [hspent, hlocked, List.replicate_succ]
        · simp [hspent, hlocked]

variable (crypto pubKeyHash) in
theorem inputs_eq (search : Search) (vins : List TXInput) :
    (vins.foldl (input crypto pubKeyHash) search).unspentTXs = search.unspentTXs ∧
      ∀ id, (vins.foldl (input crypto pubKeyHash) search).spentTXOs.get id =
        search.spentTXOs.get id ++
          named (vins.filter fun vin => vin.usesKey crypto pubKeyHash) id := by
  induction vins generalizing search with
  | nil => simp
  | cons vin vins ih =>
      obtain ⟨htxs, hspent⟩ := ih (input crypto pubKeyHash search vin)
      rw [List.foldl_cons, htxs]
      constructor
      · unfold input
        split <;> rfl
      · intro id
        rw [hspent id, List.filter_cons, input]
        by_cases huses : vin.usesKey crypto pubKeyHash = true
        · rw [if_pos huses, if_pos huses]
          by_cases hid : vin.txid = id
          · subst hid
            simp [named]
          · rw [Lib.Mapping.get_set_of_ne _ _ (Ne.symm hid)]
            simp [named, hid]
        · rw [if_neg huses, if_neg huses]

theorem transaction_spec (search : Search) (tx : Transaction) :
    (transaction crypto pubKeyHash search tx).unspentTXs = search.unspentTXs ++
        List.replicate (unspentLocked pubKeyHash (search.spentTXOs.get tx.id) tx).length tx ∧
      ∀ id, (transaction crypto pubKeyHash search tx).spentTXOs.get id =
        search.spentTXOs.get id ++
          named (tx.spends.filter fun vin => vin.usesKey crypto pubKeyHash) id := by
  unfold transaction Transaction.spends
  rw [outputs_eq]
  cases tx.isCoinbase with
  | true => exact ⟨rfl, fun id => (List.append_nil _).symm⟩
  | false =>
      obtain ⟨htxs, hspent⟩ := inputs_eq crypto pubKeyHash
        ⟨search.unspentTXs ++ List.replicate
          (unspentLocked pubKeyHash (search.spentTXOs.get tx.id) tx).length tx,
          search.spentTXOs⟩ tx.vin
      exact ⟨htxs, hspent⟩

theorem foldl_spent (search : Search) (txs : List Transaction) (id : Bytes) :
    (txs.foldl (transaction crypto pubKeyHash) search).spentTXOs.get id =
      search.spentTXOs.get id ++
        named ((inputs txs).filter fun vin => vin.usesKey crypto pubKeyHash) id := by
  induction txs generalizing search with
  | nil => simp [inputs]
  | cons tx txs ih =>
      rw [List.foldl_cons, ih, (transaction_spec search tx).2, inputs_cons, List.filter_append,
        named_append, List.append_assoc]

end Search

section Chained

variable {crypto : Crypto} {chain : Chain} {pubKeyHash : Bytes}

/-- An input that names a transaction comes before it in the scan, and carries the key
of the output that it names. -/
theorem Chained.named_front (h : Chained crypto chain) {front back : List Transaction}
    {tx : Transaction} (hsplit : chain.flatten = front ++ tx :: back) {vin : TXInput}
    (hvin : vin ∈ inputs chain.flatten) (hid : vin.txid = tx.id) :
    vin ∈ inputs front ∧ ∃ out, outputAt tx.vout vin.vout = some out ∧
      hashPubKey crypto vin.pubKey = out.pubKeyHash := by
  obtain ⟨spender, hspender, hspends⟩ := List.mem_flatMap.mp hvin
  obtain ⟨block, hblock, hmem⟩ := List.mem_flatten.mp hspender
  obtain ⟨newer, older, hchain⟩ := List.append_of_mem hblock
  obtain ⟨prev, hprev, hprevid, hout⟩ :=
    h.names newer block older hchain vin (List.mem_flatMap.mpr ⟨spender, hmem, hspends⟩)
  obtain ⟨before, after, hblock⟩ := List.append_of_mem hmem
  obtain ⟨early, late, holder⟩ := List.append_of_mem hprev
  have hplace : chain.flatten =
      (newer.flatten ++ before ++ spender :: (after ++ early)) ++ prev :: late := by
    rw [hchain, List.flatten_append, List.flatten_cons, hblock, holder]
    simp
  have hprevmem : prev ∈ chain.flatten := by
    rw [hplace]
    exact List.mem_append_right _ List.mem_cons_self
  have htxmem : tx ∈ chain.flatten := by
    rw [hsplit]
    exact List.mem_append_right _ List.mem_cons_self
  obtain rfl : prev = tx :=
    List.inj_on_of_nodup_map h.distinct hprevmem htxmem (hprevid.trans hid)
  have hnodup := List.Nodup.of_map _ h.distinct
  rw [hplace] at hnodup
  have hnotLate : prev ∉ late :=
    (List.nodup_cons.mp (List.nodup_append.mp hnodup).2.1).1
  have hnotFront : prev ∉ newer.flatten ++ before ++ spender :: (after ++ early) := by
    intro hfront
    exact (List.nodup_append.mp hnodup).2.2 prev hfront prev List.mem_cons_self rfl
  have hsame := (List.append_cons_inj_of_notMem hnotFront hnotLate).mp (hplace.symm.trans hsplit)
  refine ⟨?_, hout⟩
  rw [← hsame.1]
  refine List.mem_flatMap.mpr ⟨spender, ?_, hspends⟩
  simp

/-- What the scan has marked as spent of a transaction is what inputs of the chain
name, as far as the key locks it. -/
theorem Chained.unspentLocked_eq (h : Chained crypto chain) {front back : List Transaction}
    {tx : Transaction} (hsplit : chain.flatten = front ++ tx :: back) :
    unspentLocked pubKeyHash
        (named ((inputs front).filter fun vin => vin.usesKey crypto pubKeyHash) tx.id) tx =
      unspentLocked pubKeyHash (named (inputs chain.flatten) tx.id) tx := by
  refine List.filter_congr fun entry hentry => ?_
  obtain ⟨hmem, hlocked⟩ := List.mem_filter.mp hentry
  have hget : tx.vout[entry.2]? = some entry.1 := List.mem_zipIdx_iff_getElem?.mp hmem
  have hnamed : (entry.2 : Int) ∈ named
      ((inputs front).filter fun vin => vin.usesKey crypto pubKeyHash) tx.id ↔
      (entry.2 : Int) ∈ named (inputs chain.flatten) tx.id := by
    rw [mem_named, mem_named]
    constructor
    · rintro ⟨vin, hvin, hid, hvout⟩
      refine ⟨vin, ?_, hid, hvout⟩
      rw [hsplit, inputs_append]
      exact List.mem_append_left _ (List.mem_filter.mp hvin).1
    · rintro ⟨vin, hvin, hid, hvout⟩
      obtain ⟨hfront, out, hout, hkey⟩ := h.named_front hsplit hvin hid
      have hout : tx.vout[entry.2]? = some out := by
        rw [hvout] at hout
        simpa [outputAt] using hout
      obtain rfl := Option.some.inj (hget.symm.trans hout)
      refine ⟨vin, List.mem_filter.mpr ⟨hfront, ?_⟩, hid, hvout⟩
      have hpubKeyHash : entry.1.pubKeyHash = pubKeyHash := of_decide_eq_true hlocked
      exact decide_eq_true (hkey.trans hpubKeyHash)
  simp only [hnamed]

theorem Chained.findUnspentTransactions_eq (h : Chained crypto chain) (pubKeyHash : Bytes) :
    findUnspentTransactions crypto chain pubKeyHash = chain.flatten.flatMap fun tx =>
      List.replicate
        (unspentLocked pubKeyHash (named (inputs chain.flatten) tx.id) tx).length tx := by
  have hscan : ∀ front back, chain.flatten = front ++ back →
      (front.foldl (Search.transaction crypto pubKeyHash) ⟨[], ∅⟩).unspentTXs =
        front.flatMap fun tx => List.replicate
          (unspentLocked pubKeyHash (named (inputs chain.flatten) tx.id) tx).length tx := by
    intro front
    induction front using List.reverseRecOn with
    | nil => exact fun _ _ => rfl
    | append_singleton front tx ih =>
        intro back hsplit
        rw [List.append_assoc] at hsplit
        rw [List.foldl_append, List.foldl_cons, List.foldl_nil,
          (Search.transaction_spec _ tx).1, ih _ hsplit, Search.foldl_spent,
          Lib.Mapping.get_empty, List.flatMap_append]
        congr 1
        change List.replicate (unspentLocked pubKeyHash (named _ tx.id) tx).length tx = _
        rw [h.unspentLocked_eq hsplit]
        simp
  have hflat : chain.foldl (Search.block crypto pubKeyHash) ⟨[], ∅⟩ =
      chain.flatten.foldl (Search.transaction crypto pubKeyHash) ⟨[], ∅⟩ := by
    rw [List.foldl_flatten]
    rfl
  rw [findUnspentTransactions, hflat]
  exact hscan _ [] (List.append_nil _).symm

end Chained

/-! The selection. -/

/-- The first outputs of the key that reach the amount are picked, and added up as far as
an `int` goes. -/
theorem work_spec (pubKeyHash : Bytes) (amount sum : Int)
    (unspentOutputs : Lib.Mapping Bytes (List Nat)) (entries : List (Bytes × TXOutput × Nat)) :
    let found := work pubKeyHash amount (wrap sum) unspentOutputs entries
    let picks := reach (fun entry => entry.2.1.value) amount (wrap sum)
      (entries.filter fun entry => entry.2.1.isLockedWithKey pubKeyHash)
    (∀ id, found.2.get id =
        unspentOutputs.get id ++ (picks.filter fun pick => pick.1 = id).map (·.2.2)) ∧
      found.1 = wrap (sum + total picks) := by
  intro found picks
  induction entries generalizing sum unspentOutputs with
  | nil => exact ⟨fun id => (List.append_nil _).symm, congrArg wrap (Int.add_zero _).symm⟩
  | cons entry entries ih =>
      obtain ⟨txID, out, outIdx⟩ := entry
      by_cases htake : out.isLockedWithKey pubKeyHash = true ∧ wrap sum < amount
      · have hget : ∀ id, (unspentOutputs.set txID (unspentOutputs.get txID ++ [outIdx])).get id =
            unspentOutputs.get id ++
              ([(txID, out, outIdx)].filter fun pick => pick.1 = id).map (·.2.2) := by
          intro id
          by_cases hid : txID = id
          · subst hid
            simp
          · rw [Lib.Mapping.get_set_of_ne _ _ (Ne.symm hid)]
            simp [hid]
        have hpicks : picks = (txID, out, outIdx) :: reach (fun entry => entry.2.1.value) amount
            (wrap (sum + out.value))
            (entries.filter fun entry => entry.2.1.isLockedWithKey pubKeyHash) := by
          change reach _ amount (wrap sum) _ = _
          rw [List.filter_cons, if_pos htake.1, reach_cons _ htake.2, addInt_wrap]
        rw [hpicks]
        by_cases hreached : amount ≤ wrap (sum + out.value)
        · have hfound : found = (wrap (sum + out.value),
              unspentOutputs.set txID (unspentOutputs.get txID ++ [outIdx])) := by
            change work pubKeyHash amount (wrap sum) unspentOutputs _ = _
            rw [work, if_pos htake, addInt_wrap, if_pos hreached]
          rw [hfound, reach_of_le _ hreached]
          exact ⟨hget, by simp [total]⟩
        · have hfound : found = work pubKeyHash amount (wrap (sum + out.value))
              (unspentOutputs.set txID (unspentOutputs.get txID ++ [outIdx])) entries := by
            change work pubKeyHash amount (wrap sum) unspentOutputs _ = _
            rw [work, if_pos htake, addInt_wrap, if_neg hreached]
          rw [hfound]
          obtain ⟨hgets, hsum⟩ := ih (sum + out.value)
            (unspentOutputs.set txID (unspentOutputs.get txID ++ [outIdx]))
          refine ⟨fun id => ?_, ?_⟩
          · rw [hgets id, hget id, List.append_assoc, ← List.map_append, ← List.filter_append]
            rfl
          · rw [hsum, total, total, List.map_cons, List.sum_cons, Int.add_assoc]
      · have hfound : found = work pubKeyHash amount (wrap sum) unspentOutputs entries := by
          change work pubKeyHash amount (wrap sum) unspentOutputs _ = _
          rw [work, if_neg htake]
        have hpicks : picks = reach (fun entry => entry.2.1.value) amount (wrap sum)
            (entries.filter fun entry => entry.2.1.isLockedWithKey pubKeyHash) := by
          change reach _ amount (wrap sum) _ = _
          by_cases hlocked : out.isLockedWithKey pubKeyHash = true
          · have hle : amount ≤ wrap sum := Int.not_lt.mp fun hlt => htake ⟨hlocked, hlt⟩
            rw [reach_of_le _ hle, reach_of_le _ hle]
          · rw [List.filter_cons, if_neg hlocked]
        rw [hfound, hpicks]
        exact ih sum unspentOutputs

/-! What the two filters give. -/

section Balance

variable {crypto : Crypto} {chain : Chain} {pubKeyHash : Bytes}

theorem filter_locked (pubKeyHash : Bytes) (tx : Transaction) :
    tx.vout.filter (·.isLockedWithKey pubKeyHash) = (locked pubKeyHash tx).map Prod.fst := by
  conv_lhs => rw [← List.zipIdx_map_fst 0 tx.vout, List.filter_map]
  rfl

theorem nodup_locked (pubKeyHash : Bytes) (tx : Transaction) :
    ((locked pubKeyHash tx).map Prod.snd).Nodup := by
  refine List.Nodup.sublist (List.filter_sublist.map _) ?_
  rw [List.zipIdx_map_snd]
  exact List.nodup_range'

/-- With no second output of the key, what is found of a transaction is its unspent
output, if there is one. -/
theorem flatMap_locked {spent : List Int} {tx : Transaction}
    (h : ∀ entry ∈ unspentLocked pubKeyHash spent tx, ∀ other ∈ locked pubKeyHash tx,
      other = entry) :
    (List.replicate (unspentLocked pubKeyHash spent tx).length tx).flatMap
      (locked pubKeyHash) = unspentLocked pubKeyHash spent tx := by
  cases hunspent : unspentLocked pubKeyHash spent tx with
  | nil => rfl
  | cons entry rest =>
      have hentry : entry ∈ unspentLocked pubKeyHash spent tx := by
        rw [hunspent]
        exact List.mem_cons_self
      have hmem := (List.mem_filter.mp hentry).1
      have hall := List.eq_replicate_of_mem (h entry hentry)
      have hnodup := List.Nodup.of_map _ (nodup_locked pubKeyHash tx)
      rw [hall, List.nodup_replicate] at hnodup
      have hpos := List.length_pos_of_mem hmem
      have hone : (locked pubKeyHash tx).length = 1 := by omega
      have hlocked : locked pubKeyHash tx = [entry] := by
        rw [hall, hone]
        rfl
      have hshort : (entry :: rest).length ≤ [entry].length := by
        rw [← hunspent, ← hlocked]
        exact List.length_filter_le _ _
      have hrest : rest = [] := by
        rw [← List.length_eq_zero_iff]
        simp only [List.length_cons, List.length_nil] at hshort
        omega
      subst hrest
      simp [hlocked]

theorem Chained.outputsOf_eq (h : Chained crypto chain) (hsingle : NoSecond chain pubKeyHash) :
    (outputsOf (findUnspentTransactions crypto chain pubKeyHash)).filter
        (fun entry => entry.2.1.isLockedWithKey pubKeyHash) = balance chain pubKeyHash := by
  rw [h.findUnspentTransactions_eq, outputsOf, List.filter_flatMap, List.flatMap_assoc, balance]
  refine List.flatMap_congr fun tx htx => ?_
  conv_rhs => rw [← flatMap_locked (hsingle tx htx), List.map_flatMap]
  refine List.flatMap_congr fun tx' htx' => ?_
  obtain rfl := List.eq_of_mem_replicate htx'
  rw [List.filter_map]
  rfl

theorem Chained.findUTXO_eq (h : Chained crypto chain) (hsingle : NoSecond chain pubKeyHash) :
    findUTXO crypto chain pubKeyHash =
      (balance chain pubKeyHash).map fun entry => entry.2.1 := by
  rw [← h.outputsOf_eq hsingle, outputsOf, List.filter_flatMap, List.map_flatMap, findUTXO]
  refine List.flatMap_congr fun tx _ => ?_
  rw [filter_locked, List.filter_map, List.map_map]
  rfl

theorem Chained.nodup_balance (h : Chained crypto chain) :
    ((balance chain pubKeyHash).map fun entry => (entry.1, entry.2.2)).Nodup := by
  rw [balance, List.map_flatMap, List.nodup_flatMap]
  constructor
  · intro tx _
    rw [List.map_map]
    refine List.Nodup.of_map Prod.snd ?_
    rw [List.map_map]
    exact (nodup_locked pubKeyHash tx).sublist (List.filter_sublist.map _)
  · refine (List.pairwise_map.mp h.distinct).imp fun hne => ?_
    intro place hplace hother
    simp only [List.mem_map] at hplace hother
    obtain ⟨_, ⟨_, _, rfl⟩, rfl⟩ := hplace
    obtain ⟨_, ⟨_, _, rfl⟩, hsame⟩ := hother
    exact hne (congrArg Prod.fst hsame).symm

theorem Chained.found_eq (h : Chained crypto chain) (hsingle : NoSecond chain pubKeyHash)
    (amount : Int) :
    (∀ id, (findSpendableOutputs crypto chain pubKeyHash amount).2.get id =
      ((needed chain pubKeyHash amount).filter fun pick => pick.1 = id).map (·.2.2)) ∧
    (findSpendableOutputs crypto chain pubKeyHash amount).1 =
      wrap (total (needed chain pubKeyHash amount)) := by
  obtain ⟨hgets, hsum⟩ := work_spec pubKeyHash amount 0 ∅
    (outputsOf (findUnspentTransactions crypto chain pubKeyHash))
  rw [h.outputsOf_eq hsingle, Int.zero_add] at hsum
  rw [h.outputsOf_eq hsingle] at hgets
  exact ⟨hgets, hsum⟩

theorem needed_sublist (chain : Chain) (pubKeyHash : Bytes) (amount : Int) :
    (needed chain pubKeyHash amount).Sublist (balance chain pubKeyHash) :=
  (reach_starts _ _ _ _).sublist

theorem Chained.balanceRight (h : Chained crypto chain) (hsingle : NoSecond chain pubKeyHash)
    (hfits : SumsFit chain pubKeyHash) : BalanceRight crypto chain pubKeyHash where
  utxo := by rw [h.findUTXO_eq hsingle]
  spendable amount hamount := by
    obtain ⟨hgets, hsum⟩ := h.found_eq hsingle amount
    have hpicks := needed_sublist chain pubKeyHash amount
    refine ⟨needed chain pubKeyHash amount, hgets, (hpicks.map _).nodup h.nodup_balance,
      fun pick hpick => hpicks.subset hpick, ?_⟩
    rw [hsum, wrap_eq_self_iff.mpr (hfits amount hamount)]
    rfl

/-- The map tells which outputs were picked. -/
theorem perm_of_gets {entries picks picks' : List (Bytes × TXOutput × Nat)}
    (hplaces : (entries.map fun entry => (entry.1, entry.2.2)).Nodup)
    (hsub : picks ⊆ entries) (hsub' : picks' ⊆ entries) (hnodup : picks.Nodup)
    (hnodup' : picks'.Nodup)
    (hgets : ∀ id : Bytes, (picks.filter fun pick => pick.1 = id).map (·.2.2) =
      (picks'.filter fun pick => pick.1 = id).map (·.2.2)) : picks.Perm picks' := by
  have hmem : ∀ {some other : List (Bytes × TXOutput × Nat)}, some ⊆ entries →
      other ⊆ entries → (∀ id : Bytes, (some.filter fun pick => pick.1 = id).map (·.2.2) =
        (other.filter fun pick => pick.1 = id).map (·.2.2)) →
      ∀ pick ∈ some, pick ∈ other := by
    intro some other hsome hother hgets pick hpick
    have hindex : pick.2.2 ∈ (some.filter fun found => found.1 = pick.1).map (·.2.2) :=
      List.mem_map_of_mem (List.mem_filter.mpr ⟨hpick, decide_eq_true rfl⟩)
    rw [hgets] at hindex
    obtain ⟨found, hfound, hsame⟩ := List.mem_map.mp hindex
    obtain ⟨hfound, hid⟩ := List.mem_filter.mp hfound
    have heq := List.inj_on_of_nodup_map hplaces (hother hfound) (hsome hpick)
      (Prod.ext (of_decide_eq_true hid) hsame)
    rwa [← heq]
  exact (List.perm_ext_iff_of_nodup hnodup hnodup').mpr fun pick =>
    ⟨hmem hsub hsub' hgets pick, hmem hsub' hsub (fun id => (hgets id).symm) pick⟩

theorem Chained.sumsFit (h : Chained crypto chain) (hsingle : NoSecond chain pubKeyHash)
    (hright : ∀ amount, IsInt amount → SelectsRight crypto chain pubKeyHash amount) :
    SumsFit chain pubKeyHash := by
  intro amount hamount
  obtain ⟨hgets, hsum⟩ := h.found_eq hsingle amount
  obtain ⟨picks, hgets', hnodup, hpicks, hsum'⟩ := hright amount hamount
  have hneeded := needed_sublist chain pubKeyHash amount
  have hperm := perm_of_gets h.nodup_balance hneeded.subset (fun pick hpick => hpicks pick hpick)
    (hneeded.nodup (List.Nodup.of_map _ h.nodup_balance)) (List.Nodup.of_map _ hnodup)
    fun id => (hgets id).symm.trans (hgets' id)
  have htotal : total (needed chain pubKeyHash amount) = total picks := by
    unfold total
    exact (hperm.map _).sum_eq
  rw [← wrap_eq_self_iff, ← hsum, hsum', htotal]
  rfl

/-- Each transaction counts its unspent outputs as often as the key locks one of it. -/
theorem Chained.length_findUTXO (h : Chained crypto chain) :
    (findUTXO crypto chain pubKeyHash).length = (chain.flatten.map fun tx =>
      (unspentLocked pubKeyHash (named (inputs chain.flatten) tx.id) tx).length *
        (locked pubKeyHash tx).length).sum := by
  rw [findUTXO, h.findUnspentTransactions_eq, List.flatMap_assoc, List.length_flatMap]
  congr 1
  refine List.map_congr_left fun tx _ => ?_
  rw [List.length_flatMap, List.map_replicate, List.sum_replicate, filter_locked,
    List.length_map]
  rfl

theorem Chained.noSecond (h : Chained crypto chain)
    (hutxo : (findUTXO crypto chain pubKeyHash).Perm
      ((balance chain pubKeyHash).map fun entry => entry.2.1)) :
    NoSecond chain pubKeyHash := by
  have hlength := hutxo.length_eq
  rw [h.length_findUTXO, List.length_map, balance, List.length_flatMap] at hlength
  simp only [List.length_map] at hlength
  intro tx htx entry hentry other hother
  by_contra hne
  have htwo : 1 < (locked pubKeyHash tx).length := by
    refine Nat.lt_of_not_le fun hle => hne ?_
    have hown := (List.mem_filter.mp hentry).1
    obtain ⟨first, hfirst⟩ := List.length_eq_one_iff.mp
      (Nat.le_antisymm hle (List.length_pos_of_mem hown))
    rw [hfirst, List.mem_singleton] at hother hown
    rw [hother, hown]
  refine Nat.ne_of_lt ?_ hlength.symm
  refine List.sum_lt_sum _ _ ?_ ⟨tx, htx, ?_⟩
  · intro tx' _
    have hle : (unspentLocked pubKeyHash (named (inputs chain.flatten) tx'.id) tx').length ≤
        (locked pubKeyHash tx').length := List.length_filter_le _ _
    rcases Nat.eq_zero_or_pos
      (unspentLocked pubKeyHash (named (inputs chain.flatten) tx'.id) tx').length with hzero | hpos
    · rw [hzero]
      exact Nat.zero_le _
    · exact Nat.le_mul_of_pos_right _ (Nat.lt_of_lt_of_le hpos hle)
  · exact (Nat.lt_mul_iff_one_lt_right (List.length_pos_of_mem hentry)).mpr htwo

theorem balance_right_iff (h : Chained crypto chain) (pubKeyHash : Bytes) :
    BalanceRight crypto chain pubKeyHash ↔
      NoSecond chain pubKeyHash ∧ SumsFit chain pubKeyHash := by
  constructor
  · intro hright
    have hsingle := h.noSecond hright.utxo
    exact ⟨hsingle, h.sumsFit hsingle hright.spendable⟩
  · rintro ⟨hsingle, hfits⟩
    exact h.balanceRight hsingle hfits

end Balance

section Change

/-! A key spends its reward of 10, and gets the change. What it pays goes to another key
or, in the second chain, to itself. -/

def plainCrypto : Crypto where
  sha256 := id
  ripemd160 := id
  ecdsaVerify _ _ _ _ := true
  serialize _ := []

def reward : Transaction :=
  ⟨[1], [⟨[], -1, [], []⟩], [⟨10, [7]⟩]⟩

def payment (receiver : Bytes) : Transaction :=
  ⟨[2], [⟨[1], 0, [], [7]⟩], [⟨4, receiver⟩, ⟨6, [7]⟩]⟩

theorem chained_payment (receiver : Bytes) :
    Chained plainCrypto [[payment receiver], [reward]] where
  distinct := by
    change ([[2], [1]] : List Bytes).Nodup
    decide
  names := by
    intro newer block older hchain vin hvin
    rcases newer with _ | ⟨_, _ | ⟨_, newer⟩⟩
    · obtain ⟨rfl, rfl⟩ := List.cons.inj hchain
      obtain rfl : vin = ⟨[1], 0, [], [7]⟩ := List.mem_singleton.mp hvin
      exact ⟨reward, List.mem_singleton.mpr rfl, rfl, ⟨10, [7]⟩, rfl, rfl⟩
    · obtain ⟨rfl, _⟩ := List.cons.inj (List.cons.inj hchain).2
      cases hvin
    · have hlength := congrArg List.length hchain
      simp at hlength
  once := List.nodup_singleton _

theorem balance_right_payment :
    BalanceRight plainCrypto [[payment [8]], [reward]] [7] := by
  rw [balance_right_iff (chained_payment [8])]
  refine ⟨?_, sumsFit_of_total (by decide) (by decide)⟩
  unfold NoSecond
  decide

/-- `FindUTXO` returns 4, 6, 4 and 6. -/
theorem balance_doubled : ¬ ∀ crypto chain pubKeyHash, Chained crypto chain →
    BalanceRight crypto chain pubKeyHash := by
  intro h
  have hutxo := (h plainCrypto [[payment [7]], [reward]] [7] (chained_payment [7])).utxo
  exact absurd hutxo.length_eq (by decide)

end Change

end BlockchainTutorial.Bitcoin.AddressStage
