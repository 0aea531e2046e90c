import BlockchainTutorial.Bitcoin.Blockchain

namespace BlockchainTutorial.Bitcoin

/-! What `FindUTXO` finds. -/

def Transaction.spends (tx : Transaction) : List TXInput :=
  if tx.isCoinbase then [] else tx.vin

def inputs (txs : List Transaction) : List TXInput :=
  txs.flatMap Transaction.spends

def transactions (chain : Chain) : List Transaction :=
  chain.flatMap (·.transactions)

/-- The indexes of outputs of a transaction that inputs name. -/
def named (vins : List TXInput) (id : Bytes) : List Int :=
  (vins.filter fun vin => vin.txid = id).map (·.vout)

def unspentIndexes (spent : List Int) (n : Nat) : List Nat :=
  (List.range n).filter fun i => (i : Int) ∉ spent

def outputOf (outs : List TXOutput) (i : Nat) : TXOutput :=
  outs.getD i ⟨0, []⟩

def unspent (spent : List Int) (outs : List TXOutput) : List TXOutput :=
  (unspentIndexes spent outs.length).map (outputOf outs)

/-- An ID has no entry when it has no outputs. -/
def stored (outs : List TXOutput) : Option (List TXOutput) :=
  if outs = [] then none else some outs

theorem stored_inj {outs outs' : List TXOutput} : stored outs = stored outs' ↔ outs = outs' := by
  constructor
  · intro h
    unfold stored at h
    split at h <;> split at h <;> simp_all
  · rintro rfl
    rfl

theorem mem_unspentIndexes {spent : List Int} {n i : Nat} :
    i ∈ unspentIndexes spent n ↔ i < n ∧ (i : Int) ∉ spent := by
  simp [unspentIndexes]

theorem unspentIndexes_increasing (spent : List Int) (n : Nat) :
    (unspentIndexes spent n).Pairwise (· < ·) :=
  List.pairwise_lt_range.filter _

@[simp] theorem named_nil (id : Bytes) : named [] id = [] := rfl

theorem named_append (vins vins' : List TXInput) (id : Bytes) :
    named (vins ++ vins') id = named vins id ++ named vins' id := by
  simp [named]

theorem mem_named {vins : List TXInput} {id : Bytes} {vout : Int} :
    vout ∈ named vins id ↔ ∃ vin ∈ vins, vin.txid = id ∧ vin.vout = vout := by
  simp [named, and_assoc]

theorem inputs_append (txs txs' : List Transaction) :
    inputs (txs ++ txs') = inputs txs ++ inputs txs' :=
  List.flatMap_append

theorem inputs_cons (tx : Transaction) (txs : List Transaction) :
    inputs (tx :: txs) = tx.spends ++ inputs txs := rfl

theorem transactions_cons (block : Block) (chain : Chain) :
    transactions (block :: chain) = block.transactions ++ transactions chain := rfl

/-! The two maps. -/

namespace Scan

def kept (spent : List Int) : Nat → List TXOutput → List TXOutput
  | _, [] => []
  | outIdx, out :: outs =>
      if (outIdx : Int) ∈ spent then kept spent (outIdx + 1) outs
      else out :: kept spent (outIdx + 1) outs

theorem kept_eq (spent : List Int) (start : Nat) (outs : List TXOutput) :
    kept spent start outs = ((List.range outs.length).filter
      fun i => ((start + i : Nat) : Int) ∉ spent).map (outputOf outs) := by
  induction outs generalizing start with
  | nil => rfl
  | cons out outs ih =>
      have hrest : ((List.range outs.length).map Nat.succ).filter
          (fun i => ((start + i : Nat) : Int) ∉ spent) =
          ((List.range outs.length).filter
            fun i => ((start + 1 + i : Nat) : Int) ∉ spent).map Nat.succ := by
        rw [List.filter_map]
        congr 1
        refine List.filter_congr fun i _ => ?_
        rw [Function.comp_apply, Nat.add_right_comm, Nat.succ_eq_add_one, Nat.add_assoc]
      have htail : (((List.range outs.length).filter
          fun i => ((start + 1 + i : Nat) : Int) ∉ spent).map Nat.succ).map
            (outputOf (out :: outs)) = kept spent (start + 1) outs := by
        rw [ih, List.map_map]
        rfl
      rw [List.length_cons, List.range_succ_eq_map, List.filter_cons, hrest]
      unfold kept
      by_cases hspent : (start : Int) ∈ spent
      · rw [if_pos hspent, if_neg (by simpa using hspent), htail]
      · rw [if_neg hspent, if_pos (by simpa using hspent), List.map_cons, htail]
        rfl

theorem kept_zero (spent : List Int) (outs : List TXOutput) :
    kept spent 0 outs = unspent spent outs := by
  simp only [kept_eq, unspent, unspentIndexes, Nat.zero_add]

def onto (old : Option (List TXOutput)) (outs : List TXOutput) : Option (List TXOutput) :=
  if outs = [] then old else some (old.getD [] ++ outs)

theorem onto_cons (old : Option (List TXOutput)) (out : TXOutput) (outs : List TXOutput) :
    onto (some (old.getD [] ++ [out])) outs = onto old (out :: outs) := by
  unfold onto
  by_cases houts : outs = []
  · simp [houts]
  · simp [houts]

@[simp] theorem onto_none (outs : List TXOutput) : onto none outs = stored outs := rfl

theorem outputs_spentTXOs (txID : Bytes) (scan : Scan) (outIdx : Nat)
    (outs : List TXOutput) : (outputs txID scan outIdx outs).spentTXOs = scan.spentTXOs := by
  induction outs generalizing scan outIdx with
  | nil => rfl
  | cons out outs ih =>
      unfold outputs
      split
      · exact ih _ _
      · exact ih _ _

theorem outputs_get_self (txID : Bytes) (scan : Scan) (outIdx : Nat)
    (outs : List TXOutput) : (outputs txID scan outIdx outs).utxo.get txID =
      onto (scan.utxo.get txID) (kept (scan.spentTXOs.get txID) outIdx outs) := by
  induction outs generalizing scan outIdx with
  | nil => rfl
  | cons out outs ih =>
      unfold outputs kept
      split
      · exact ih _ _
      · rw [ih, Lib.Mapping.get_set_self, onto_cons]

theorem outputs_get_of_ne {txID id : Bytes} (hne : id ≠ txID) (scan : Scan) (outIdx : Nat)
    (outs : List TXOutput) :
    (outputs txID scan outIdx outs).utxo.get id = scan.utxo.get id := by
  induction outs generalizing scan outIdx with
  | nil => rfl
  | cons out outs ih =>
      unfold outputs
      split
      · exact ih _ _
      · rw [ih, Lib.Mapping.get_set_of_ne _ _ hne]

theorem inputs_utxo (scan : Scan) (vins : List TXInput) :
    (vins.foldl input scan).utxo = scan.utxo := by
  induction vins generalizing scan with
  | nil => rfl
  | cons vin vins ih => exact ih _

theorem inputs_get (scan : Scan) (vins : List TXInput) (id : Bytes) :
    (vins.foldl input scan).spentTXOs.get id = scan.spentTXOs.get id ++ named vins id := by
  induction vins generalizing scan with
  | nil => simp
  | cons vin vins ih =>
      rw [List.foldl_cons, ih]
      by_cases hid : vin.txid = id
      · subst hid
        simp [input, named]
      · rw [input, Lib.Mapping.get_set_of_ne _ _ (Ne.symm hid)]
        simp [named, hid]

theorem transaction_eq (scan : Scan) (tx : Transaction) :
    scan.transaction tx = tx.spends.foldl input (outputs tx.id scan 0 tx.vout) := by
  unfold transaction Transaction.spends
  split <;> rfl

theorem transaction_spent (scan : Scan) (tx : Transaction) (id : Bytes) :
    (scan.transaction tx).spentTXOs.get id =
      scan.spentTXOs.get id ++ named tx.spends id := by
  rw [transaction_eq, inputs_get, outputs_spentTXOs]

theorem transaction_get_self (scan : Scan) (tx : Transaction) :
    (scan.transaction tx).utxo.get tx.id =
      onto (scan.utxo.get tx.id) (unspent (scan.spentTXOs.get tx.id) tx.vout) := by
  rw [transaction_eq, inputs_utxo, outputs_get_self, kept_zero]

theorem transaction_get_of_ne {scan : Scan} {tx : Transaction} {id : Bytes}
    (hne : id ≠ tx.id) : (scan.transaction tx).utxo.get id = scan.utxo.get id := by
  rw [transaction_eq, inputs_utxo, outputs_get_of_ne hne]

theorem foldl_spent (scan : Scan) (txs : List Transaction) (id : Bytes) :
    (txs.foldl transaction scan).spentTXOs.get id =
      scan.spentTXOs.get id ++ named (inputs txs) id := by
  induction txs generalizing scan with
  | nil => simp [inputs]
  | cons tx txs ih =>
      rw [List.foldl_cons, ih, transaction_spent, inputs_cons, named_append, List.append_assoc]

theorem foldl_get_of_notMem {scan : Scan} {txs : List Transaction} {id : Bytes}
    (hid : id ∉ txs.map (·.id)) :
    (txs.foldl transaction scan).utxo.get id = scan.utxo.get id := by
  induction txs generalizing scan with
  | nil => rfl
  | cons tx txs ih =>
      rw [List.map_cons, List.mem_cons, not_or] at hid
      rw [List.foldl_cons, ih hid.2, transaction_get_of_ne hid.1]

theorem foldl_get {front back : List Transaction} {tx : Transaction}
    (hdistinct : ((front ++ tx :: back).map (·.id)).Nodup) :
    ((front ++ tx :: back).foldl transaction ⟨∅, ∅⟩).utxo.get tx.id =
      stored (unspent (named (inputs front) tx.id) tx.vout) := by
  rw [List.map_append, List.map_cons, List.nodup_append] at hdistinct
  obtain ⟨_, hback, hfront⟩ := hdistinct
  have hnotBack := (List.nodup_cons.mp hback).1
  have hnotFront : tx.id ∉ front.map (·.id) := fun hmem =>
    hfront _ hmem _ List.mem_cons_self rfl
  rw [List.foldl_append, List.foldl_cons, foldl_get_of_notMem hnotBack,
    transaction_get_self, foldl_get_of_notMem hnotFront, foldl_spent]
  rfl

end Scan

theorem findUTXO_eq (chain : Chain) :
    findUTXO chain = ((transactions chain).foldl Scan.transaction ⟨∅, ∅⟩).utxo := by
  unfold findUTXO transactions Scan.block
  rw [List.foldl_flatMap]

/-! Chains whose inputs name outputs of earlier blocks, no two the same one. -/

structure Extends (chain : Chain) (txs : List Transaction) : Prop where
  distinct : (txs.map (·.id)).Nodup
  fresh : ∀ tx ∈ txs, tx.id ∉ (transactions chain).map (·.id)
  named : ∀ vin ∈ inputs txs, ∃ tx ∈ transactions chain, tx.id = vin.txid ∧
    ∃ out, outputAt tx.vout vin.vout = some out
  once : ((inputs txs).map outpoint).Nodup
  unspent : ∀ vin ∈ inputs txs, outpoint vin ∉ (inputs (transactions chain)).map outpoint

def Valid : Chain → Prop
  | [] => True
  | block :: chain => Valid chain ∧ Extends chain block.transactions

theorem Valid.distinct {chain : Chain} (h : Valid chain) :
    ((transactions chain).map (·.id)).Nodup := by
  induction chain with
  | nil => exact List.nodup_nil
  | cons block chain ih =>
      obtain ⟨hchain, hblock⟩ := h
      rw [transactions_cons, List.map_append, List.nodup_append]
      refine ⟨hblock.distinct, ih hchain, ?_⟩
      rintro id hid _ hold rfl
      obtain ⟨tx, htx, rfl⟩ := List.mem_map.mp hid
      exact hblock.fresh tx htx hold

theorem Valid.once {chain : Chain} (h : Valid chain) :
    ((inputs (transactions chain)).map outpoint).Nodup := by
  induction chain with
  | nil => exact List.nodup_nil
  | cons block chain ih =>
      obtain ⟨hchain, hblock⟩ := h
      rw [transactions_cons, inputs_append, List.map_append, List.nodup_append]
      refine ⟨hblock.once, ih hchain, ?_⟩
      rintro point hpoint _ hold rfl
      obtain ⟨vin, hvin, rfl⟩ := List.mem_map.mp hpoint
      exact hblock.unspent vin hvin hold

theorem Valid.named {chain : Chain} (h : Valid chain) :
    ∀ vin ∈ inputs (transactions chain), ∃ tx ∈ transactions chain, tx.id = vin.txid ∧
      ∃ out, outputAt tx.vout vin.vout = some out := by
  induction chain with
  | nil => intro vin hvin; cases hvin
  | cons block chain ih =>
      obtain ⟨hchain, hblock⟩ := h
      intro vin hvin
      rw [transactions_cons, inputs_append, List.mem_append] at hvin
      have hnamed : ∃ tx ∈ transactions chain, tx.id = vin.txid ∧
          ∃ out, outputAt tx.vout vin.vout = some out :=
        hvin.elim (hblock.named vin) (ih hchain vin)
      obtain ⟨tx, htx, hid⟩ := hnamed
      exact ⟨tx, List.mem_append_right _ htx, hid⟩

/-- Inputs that name outputs of a chain name no other ID. -/
theorem named_of_notMem {chain : Chain} {vins : List TXInput}
    (hnamed : ∀ vin ∈ vins, ∃ tx ∈ transactions chain, tx.id = vin.txid ∧
      ∃ out, outputAt tx.vout vin.vout = some out) {id : Bytes}
    (hid : id ∉ (transactions chain).map (·.id)) : named vins id = [] := by
  refine List.eq_nil_iff_forall_not_mem.mpr fun vout hvout => ?_
  obtain ⟨vin, hvin, hvinid, _⟩ := mem_named.mp hvout
  obtain ⟨tx, htx, htxid, _⟩ := hnamed vin hvin
  exact hid (List.mem_map.mpr ⟨tx, htx, htxid.trans hvinid⟩)

theorem Extends.named_new {chain : Chain} {txs : List Transaction} (h : Extends chain txs)
    {tx : Transaction} (htx : tx ∈ txs) : Bitcoin.named (inputs txs) tx.id = [] :=
  named_of_notMem h.named (h.fresh tx htx)

theorem Extends.named_old {chain : Chain} {txs : List Transaction} (h : Extends chain txs)
    (hchain : Valid chain) {tx : Transaction} (htx : tx ∈ txs) :
    Bitcoin.named (inputs (transactions chain)) tx.id = [] :=
  named_of_notMem hchain.named (h.fresh tx htx)

/-- The inputs that name a transaction come before it in the scan. -/
theorem Valid.split {chain : Chain} (h : Valid chain) {tx : Transaction}
    (htx : tx ∈ transactions chain) : ∃ front back,
      transactions chain = front ++ tx :: back ∧
        Bitcoin.named (inputs (transactions chain)) tx.id =
          Bitcoin.named (inputs front) tx.id := by
  induction chain with
  | nil => cases htx
  | cons block chain ih =>
      obtain ⟨hchain, hblock⟩ := h
      rw [transactions_cons] at htx ⊢
      rcases List.mem_append.mp htx with hnew | hold
      · obtain ⟨front, back, hsplit⟩ := List.append_of_mem hnew
        refine ⟨front, back ++ transactions chain, by rw [hsplit]; simp, ?_⟩
        have hnone := hblock.named_new hnew
        rw [inputs_append, named_append, hnone, hblock.named_old hchain hnew]
        rw [hsplit, inputs_append, named_append, List.append_eq_nil_iff] at hnone
        rw [hnone.1]
        rfl
      · obtain ⟨front, back, hsplit, hnamed⟩ := ih hchain hold
        refine ⟨block.transactions ++ front, back, by rw [hsplit]; simp, ?_⟩
        rw [inputs_append, named_append, hnamed, inputs_append, named_append]

/-- For such a chain `FindUTXO` gives the outputs that no input names. -/
theorem findUTXO_get {chain : Chain} (h : Valid chain) {tx : Transaction}
    (htx : tx ∈ transactions chain) : (findUTXO chain).get tx.id =
      stored (unspent (Bitcoin.named (inputs (transactions chain)) tx.id) tx.vout) := by
  obtain ⟨front, back, hsplit, hnamed⟩ := h.split htx
  have hdistinct := h.distinct
  rw [hsplit] at hdistinct
  rw [findUTXO_eq, hnamed, hsplit, Scan.foldl_get hdistinct]

theorem findUTXO_get_of_notMem {chain : Chain} {id : Bytes}
    (hid : id ∉ (transactions chain).map (·.id)) : (findUTXO chain).get id = none := by
  rw [findUTXO_eq, Scan.foldl_get_of_notMem hid]
  rfl

end BlockchainTutorial.Bitcoin
