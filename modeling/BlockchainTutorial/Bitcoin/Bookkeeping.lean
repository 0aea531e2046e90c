import BlockchainTutorial.Bitcoin.Payment

namespace BlockchainTutorial.Bitcoin

/-! The total value of the chainstate in runs of `send -mine`. -/

open Lib (eraseAll)

def chainstateValue (bucket : Bucket) : Int :=
  bucket.total fun _ entry => value (entry.getD [])

/-! One entry of the chainstate. -/

/-- An output and the change. -/
structure SmallEntry (outs : List TXOutput) : Prop where
  ne_nil : outs ≠ []
  length_le : outs.length ≤ 2
  positive : ∀ out ∈ outs, 0 < out.value

theorem SmallEntry.value_pos {outs : List TXOutput} (h : SmallEntry outs) : 0 < value outs := by
  obtain ⟨hne, hlength, hpos⟩ := h
  match outs, hne, hlength with
  | [a], _, _ =>
      have ha := hpos a List.mem_cons_self
      simpa using ha
  | [a, b], _, _ =>
      have ha := hpos a List.mem_cons_self
      have hb := hpos b (List.mem_cons_of_mem _ List.mem_cons_self)
      simp only [value_cons, value_nil]
      omega

theorem SmallEntry.sublist {outs outs' : List TXOutput} (h : SmallEntry outs)
    (hsub : outs'.Sublist outs) (hne : outs' ≠ []) : SmallEntry outs' :=
  ⟨hne, Nat.le_trans hsub.length_le h.length_le,
    fun out hout => h.positive out (hsub.subset hout)⟩

/-- The positions that can be taken of an entry: one, or both. -/
theorem Positions.cases {outs : List TXOutput} {ps : List Nat} (h : Positions 0 outs ps)
    (hne : ps ≠ []) (hlength : outs.length ≤ 2) :
    (∃ p, p < outs.length ∧ ps = [p]) ∨ (ps = [0, 1] ∧ outs.length = 2) := by
  match ps, hne with
  | [p], _ => exact .inl ⟨p, (h.inside p List.mem_cons_self).2, rfl⟩
  | p :: q :: rest, _ =>
      have hp := h.inside p List.mem_cons_self
      have hq := h.inside q (List.mem_cons_of_mem _ List.mem_cons_self)
      obtain ⟨hfirst, hincreasing⟩ := List.pairwise_cons.mp h.increasing
      have hlt := hfirst q List.mem_cons_self
      have hrest : rest = [] := by
        refine List.eq_nil_iff_forall_not_mem.mpr fun r hr => ?_
        have hr' := h.inside r (List.mem_cons_of_mem _ (List.mem_cons_of_mem _ hr))
        have hlater := (List.pairwise_cons.mp hincreasing).1 r hr
        omega
      obtain rfl : p = 0 := by omega
      obtain rfl : q = 1 := by omega
      exact .inr ⟨by rw [hrest], by omega⟩

/-- One output that is taken is erased. Of two, the second one stays: it has moved to the
position of the first. -/
theorem SmallEntry.value_eraseAll {outs : List TXOutput} (h : SmallEntry outs) {ps : List Nat}
    (hps : Positions 0 outs ps) (hne : ps ≠ []) :
    ∃ left, 0 ≤ left ∧ (left = 0 ↔ ps.length = 1) ∧
      value outs + left = value (eraseAll outs ps) + picked outs ps := by
  rcases hps.cases hne h.length_le with ⟨p, hp, rfl⟩ | ⟨rfl, hlength⟩
  · refine ⟨0, Int.le_refl 0, by simp, ?_⟩
    have hsum : outs[p].value + value (outs.eraseIdx p) = value outs :=
      ((List.getElem_cons_eraseIdx_perm hp).map TXOutput.value).sum_eq
    have hout : outputOf outs p = outs[p] := by
      rw [outputOf, List.getD_eq_getElem?_getD, List.getElem?_eq_getElem hp]
      rfl
    change value outs + 0 = value (outs.eraseIdx p) + ((outputOf outs p).value + 0)
    rw [hout, ← hsum]
    omega
  · obtain ⟨a, b, rfl⟩ := List.length_eq_two.mp hlength
    have hb := h.positive b (List.mem_cons_of_mem _ List.mem_cons_self)
    refine ⟨b.value, Int.le_of_lt hb,
      ⟨fun hzero => by omega, fun hone => absurd hone (Nat.succ_ne_self 1)⟩, ?_⟩
    change a.value + (b.value + 0) + b.value = b.value + 0 + (a.value + (b.value + 0))
    omega

/-! The inputs of a transaction, grouped by the entry that they name. -/

theorem inputsOf_cons (publicKey : Bytes) (first : Bytes × List Nat)
    (rest : List (Bytes × List Nat)) : inputsOf publicKey (first :: rest) =
      (first.2.map fun out : Nat => (⟨first.1, out, [], publicKey⟩ : TXInput)) ++
        inputsOf publicKey rest :=
  List.flatMap_cons

theorem named_of_outpoints {vins vins' : List TXInput}
    (h : vins.map outpoint = vins'.map outpoint) (id : Bytes) :
    named vins id = named vins' id := by
  have hnamed : ∀ vins : List TXInput, named vins id =
      ((vins.map outpoint).filter fun point => point.1 = id).map (·.2) := by
    intro vins
    rw [named, List.filter_map, List.map_map]
    rfl
  rw [hnamed, hnamed, h]

theorem named_inputsOf_of_not_mem {publicKey id : Bytes} {order : List (Bytes × List Nat)}
    (h : id ∉ order.map (·.1)) : named (inputsOf publicKey order) id = [] := by
  refine List.eq_nil_iff_forall_not_mem.mpr fun vout hvout => ?_
  obtain ⟨vin, hvin, hid, _⟩ := mem_named.mp hvout
  obtain ⟨group, hgroup, hvin⟩ := List.mem_flatMap.mp hvin
  obtain ⟨out, _, rfl⟩ := List.mem_map.mp hvin
  exact h (List.mem_map.mpr ⟨group, hgroup, hid⟩)

theorem named_group (publicKey id : Bytes) (ps : List Nat) :
    named (ps.map fun out : Nat => (⟨id, out, [], publicKey⟩ : TXInput)) id =
      ps.map fun p : Nat => (p : Int) := by
  rw [named, List.filter_eq_self.mpr fun vin hvin => ?_, List.map_map]
  · rfl
  · obtain ⟨out, _, rfl⟩ := List.mem_map.mp hvin
    exact decide_eq_true rfl

theorem named_inputsOf {publicKey : Bytes} {order : List (Bytes × List Nat)}
    (hids : (order.map (·.1)).Nodup) {group : Bytes × List Nat} (hgroup : group ∈ order) :
    named (inputsOf publicKey order) group.1 = group.2.map fun p : Nat => (p : Int) := by
  induction order with
  | nil => cases hgroup
  | cons first rest ih =>
      obtain ⟨hfirst, hrest⟩ := List.nodup_cons.mp hids
      rw [inputsOf_cons, named_append]
      rcases List.mem_cons.mp hgroup with rfl | hmem
      · rw [named_group, named_inputsOf_of_not_mem hfirst, List.append_nil]
      · have hne : first.1 ≠ group.1 := fun heq =>
          hfirst (List.mem_map.mpr ⟨group, hmem, heq.symm⟩)
        have hnone : named (inputsOf publicKey [first]) group.1 = [] :=
          named_inputsOf_of_not_mem (by simpa using hne.symm)
        rw [inputsOf_cons, named_append, List.append_eq_nil_iff] at hnone
        rw [hnone.1, List.nil_append]
        exact ih hrest hmem

theorem txids_inputsOf (publicKey : Bytes) (order : List (Bytes × List Nat)) :
    (inputsOf publicKey order).map (·.txid) =
      order.flatMap fun group => List.replicate group.2.length group.1 := by
  induction order with
  | nil => rfl
  | cons first rest ih =>
      rw [inputsOf_cons, List.map_append, ih, List.map_map, List.flatMap_cons]
      congr 1
      exact List.map_const

/-! `Update` on the inputs. -/

/-- What stays of the entries of some groups, all in all. -/
theorem exists_left_groups {order : List (Bytes × List Nat)}
    {outsOf : Bytes → List TXOutput} {P : Bytes × List Nat → Prop}
    (hentries : ∀ group ∈ order, P group ∧ SmallEntry (outsOf group.1) ∧
      Positions 0 (outsOf group.1) group.2 ∧ group.2 ≠ []) :
    ∃ left, 0 ≤ left ∧ (left = 0 ↔ ∀ group ∈ order, group.2.length = 1) ∧
      (order.map fun group => value (outsOf group.1)).sum + left =
        (order.map fun group => value (eraseAll (outsOf group.1) group.2)).sum +
          (order.map fun group => picked (outsOf group.1) group.2).sum := by
  induction order with
  | nil => exact ⟨0, Int.le_refl 0, by simp, rfl⟩
  | cons group order ih =>
      obtain ⟨_, hsmall, hps, hne⟩ := hentries group List.mem_cons_self
      obtain ⟨first, hfirst, honce, hvalue⟩ := hsmall.value_eraseAll hps hne
      obtain ⟨left, hleft, hall, hsum⟩ :=
        ih fun other hother => hentries other (List.mem_cons_of_mem _ hother)
      refine ⟨first + left, Int.add_nonneg hfirst hleft, ?_, ?_⟩
      · rw [List.forall_mem_cons, ← honce, ← hall]
        omega
      · simp only [List.map_cons, List.sum_cons]
        omega

section Spend

variable {bucket bucket' : Bucket} {vins : List TXInput} {publicKey : Bytes}
  {order : List (Bytes × List Nat)} {outsOf : Bytes → List TXOutput}
  (hupdate : vins.foldlM UTXOSet.updateInput bucket = some bucket')
  (hvins : vins.map outpoint = (inputsOf publicKey order).map outpoint)

include hupdate hvins

theorem spend_get_of_not_mem {id : Bytes} (h : id ∉ order.map (·.1)) :
    bucket'.get id = bucket.get id := by
  rw [UTXOSet.updateInputs_get hupdate, named_of_outpoints hvins,
    named_inputsOf_of_not_mem h, List.foldl_nil]

theorem spend_get (hids : (order.map (·.1)).Nodup) {group : Bytes × List Nat}
    (hgroup : group ∈ order) {outs : List TXOutput} (hget : bucket.get group.1 = some outs)
    (hne : outs ≠ []) : bucket'.get group.1 = stored (eraseAll outs group.2) := by
  have hstored : some outs = stored outs := by rw [stored, if_neg hne]
  have hcast : ((group.2.map fun p : Nat => (p : Int)).map Int.toNat) = group.2 := by
    rw [List.map_map]
    exact List.map_id _
  rw [UTXOSet.updateInputs_get hupdate, named_of_outpoints hvins, named_inputsOf hids hgroup,
    hget, hstored, UTXOSet.foldl_follow, hcast]
  intro vout hvout
  obtain ⟨p, _, rfl⟩ := List.mem_map.mp hvout
  exact Int.natCast_nonneg p

/-- The inputs take the value of what they name out of the chainstate, but for what stays
of the entries that two of them name. -/
theorem spend_value (hids : (order.map (·.1)).Nodup)
    (hentries : ∀ group ∈ order, bucket.get group.1 = some (outsOf group.1) ∧
      SmallEntry (outsOf group.1) ∧ Positions 0 (outsOf group.1) group.2 ∧ group.2 ≠ []) :
    ∃ left, 0 ≤ left ∧ (left = 0 ↔ ∀ group ∈ order, group.2.length = 1) ∧
      chainstateValue bucket' +
        (order.map fun group => picked (outsOf group.1) group.2).sum =
        chainstateValue bucket + left := by
  have hagree := Lib.Mapping.total_of_agree
    (fun _ entry => value (Option.getD entry [])) hids (fun _ => value_nil)
    fun id hid => spend_get_of_not_mem hupdate hvins hid
  rw [List.map_map, List.map_map] at hagree
  have hold : order.map ((fun id => value ((bucket.get id).getD [])) ∘ (·.1)) =
      order.map fun group => value (outsOf group.1) := by
    refine List.map_congr_left fun group hgroup => ?_
    rw [Function.comp_apply, (hentries group hgroup).1]
    rfl
  have hnew : order.map ((fun id => value ((bucket'.get id).getD [])) ∘ (·.1)) =
      order.map fun group => value (eraseAll (outsOf group.1) group.2) := by
    refine List.map_congr_left fun group hgroup => ?_
    obtain ⟨hget, hsmall, _⟩ := hentries group hgroup
    rw [Function.comp_apply, spend_get hupdate hvins hids hgroup hget hsmall.ne_nil,
      UTXOSet.getD_stored]
  rw [hold, hnew] at hagree
  obtain ⟨left, hnonneg, hzero, hsum⟩ := exists_left_groups hentries
  refine ⟨left, hnonneg, hzero, ?_⟩
  change chainstateValue bucket' + _ = chainstateValue bucket + _ at hagree
  omega

end Spend

/-! Transactions with the same unsigned part. -/

theorem spends_of_unsigned {tx tx' : Transaction} (h : tx.unsigned = tx'.unsigned) :
    tx.spends.map outpoint = tx'.spends.map outpoint := by
  have hpoints := outpoints_of_unsigned h
  unfold Transaction.spends
  rw [isCoinbase_of_outpoints hpoints]
  split
  · rfl
  · exact hpoints

theorem isCoinbase_newCoinbaseTX (crypto : Crypto) (pubKeyHash : Bytes) (data : String)
    (randData : Bytes) : (newCoinbaseTX crypto pubKeyHash data randData).isCoinbase = true := by
  simp [newCoinbaseTX, Transaction.isCoinbase]

/-! The two transactions of a block of `send -mine`. -/

def coinbaseOf (crypto : Crypto) (cmd : SendCommand) : Transaction :=
  newCoinbaseTX crypto cmd.fromHash "" cmd.randData

theorem spends_coinbaseOf (crypto : Crypto) (cmd : SendCommand) :
    (coinbaseOf crypto cmd).spends = [] :=
  if_pos (isCoinbase_newCoinbaseTX _ _ _ _)

/-- The hashes of the new transactions are those of no other transaction, and the random
data of the coinbase transaction is new. -/
def DistinctIds (crypto : Crypto) (ledger : Ledger) (cmd : SendCommand) : Prop :=
  (∀ tx ∈ newUTXOTransaction crypto ledger.chain ledger.chainstate cmd,
    ∀ a ∈ [coinbaseOf crypto cmd, tx], ∀ b ∈ tx :: transactions ledger.chain,
      a.id = b.id → a.unsigned = b.unsigned) ∧
    ∀ old ∈ transactions ledger.chain, (coinbaseOf crypto cmd).unsigned ≠ old.unsigned

/-- The first outputs of the sender that reach the amount, in the order of the keys. -/
def taken (crypto : Crypto) (ledger : Ledger) (cmd : SendCommand) : List (Bytes × TXOutput) :=
  reaching cmd.amount (owned (hashPubKey crypto cmd.publicKey) (cursor ledger.chainstate))

def takenTotal (crypto : Crypto) (ledger : Ledger) (cmd : SendCommand) : Int :=
  ((taken crypto ledger cmd).map (·.2.value)).sum

/-- They are of different transactions and add up to an `int`, and the new transaction is
not one that is in the chainstate. -/
def KeepsBooks (crypto : Crypto) (ledger : Ledger) (cmd : SendCommand) : Prop :=
  ((taken crypto ledger cmd).map (·.1)).Nodup ∧ IsInt (takenTotal crypto ledger cmd) ∧
  ∀ tx ∈ newUTXOTransaction crypto ledger.chain ledger.chainstate cmd,
    ledger.chainstate.get tx.id = none

instance (crypto : Crypto) (ledger : Ledger) (cmd : SendCommand) :
    Decidable (DistinctIds crypto ledger cmd) :=
  inferInstanceAs (Decidable ((∀ tx ∈ newUTXOTransaction crypto ledger.chain
    ledger.chainstate cmd, ∀ a ∈ [coinbaseOf crypto cmd, tx], _) ∧ _))

instance (crypto : Crypto) (ledger : Ledger) (cmd : SendCommand) :
    Decidable (KeepsBooks crypto ledger cmd) :=
  inferInstanceAs (Decidable (_ ∧ _ ∧ ∀ tx ∈ newUTXOTransaction crypto ledger.chain
    ledger.chainstate cmd, _))

/-- The chainstate has entries of transactions of the chain, none of which spends its own
outputs or two outputs of one transaction. -/
structure Kept (ledger : Ledger) : Prop where
  keys : ∀ id, ledger.chainstate.get id ≠ none → id ∈ (transactions ledger.chain).map (·.id)
  entries : ∀ id outs, ledger.chainstate.get id = some outs → SmallEntry outs
  own : ∀ tx ∈ transactions ledger.chain, ∀ vin ∈ tx.spends, vin.txid ≠ tx.id
  apart : ∀ tx ∈ transactions ledger.chain, (tx.spends.map (·.txid)).Nodup

/-- What a command has done. -/
structure Sent (crypto : Crypto) (ledger : Ledger) (cmd : SendCommand) (tx : Transaction)
    (ledger' : Ledger) : Prop where
  amount_pos : 0 < cmd.amount
  created : newUTXOTransaction crypto ledger.chain ledger.chainstate cmd = some tx
  chain_eq : transactions ledger'.chain =
    coinbaseOf crypto cmd :: tx :: transactions ledger.chain
  length_eq : ledger'.chain.length = ledger.chain.length + 1
  spent : ∃ spent, tx.spends.foldlM UTXOSet.updateInput
      (ledger.chainstate.set (coinbaseOf crypto cmd).id
        (some (coinbaseOf crypto cmd).vout)) = some spent ∧
    ledger'.chainstate = spent.set tx.id (some tx.vout)

theorem exists_sent {crypto : Crypto} {ledger ledger' : Ledger} {cmd : SendCommand}
    (h : ledger.send crypto cmd = some ledger') : ∃ tx, Sent crypto ledger cmd tx ledger' := by
  obtain ⟨hamount, tx, block, htx, hblock, hchain, hupdate⟩ := Ledger.send_eq_some h
  refine ⟨tx, hamount, htx, ?_, by rw [hchain, List.length_cons], ?_⟩
  · rw [hchain, transactions_cons, hblock]
    rfl
  · rw [UTXOSet.update, hblock] at hupdate
    obtain ⟨first, hfirst, hrest⟩ := Option.bind_eq_some_iff.mp hupdate
    obtain ⟨second, hsecond, hdone⟩ := Option.bind_eq_some_iff.mp hrest
    obtain ⟨_, unspent, hunspent, rfl⟩ := UTXOSet.updateTransaction_eq_some.mp hfirst
    obtain ⟨_, spent, hspent, rfl⟩ := UTXOSet.updateTransaction_eq_some.mp hsecond
    rw [← coinbaseOf, spends_coinbaseOf] at hunspent
    obtain rfl := Option.some.inj hunspent
    exact ⟨spent, hspent, (Option.some.inj hdone).symm⟩

section Step

variable {crypto : Crypto} {ledger ledger' : Ledger} {cmd : SendCommand} {tx : Transaction}

/-- What `tx` takes, and the sum of it. -/
def foundOf (crypto : Crypto) (ledger : Ledger) (cmd : SendCommand) :
    Int × List (Bytes × List Nat) :=
  UTXOSet.findSpendableOutputs ledger.chainstate (hashPubKey crypto cmd.publicKey) cmd.amount

theorem isInt_found : IsInt (foundOf crypto ledger cmd).1 :=
  UTXOSet.isInt_findSpendableOutputs _ _ _

def outsOf (ledger : Ledger) (id : Bytes) : List TXOutput :=
  (ledger.chainstate.get id).getD []

namespace Sent

variable (h : Sent crypto ledger cmd tx ledger')

include h

theorem unsigned_eq : tx.unsigned =
    ⟨[], inputsOf cmd.publicKey cmd.order, outputsOf (foundOf crypto ledger cmd).1 cmd⟩ :=
  (newUTXOTransaction_eq_some h.created).2.2

theorem amount_le : cmd.amount ≤ (foundOf crypto ledger cmd).1 :=
  (newUTXOTransaction_eq_some h.created).1

theorem order_perm : cmd.order.Perm (foundOf crypto ledger cmd).2 :=
  (newUTXOTransaction_eq_some h.created).2.1

theorem vout_eq : tx.vout = outputsOf (foundOf crypto ledger cmd).1 cmd :=
  congrArg Transaction.vout h.unsigned_eq

theorem outpoints_eq :
    tx.vin.map outpoint = (inputsOf cmd.publicKey cmd.order).map outpoint :=
  outpoints_of_unsigned_eq h.unsigned_eq

theorem spends_eq : tx.spends = tx.vin := by
  refine if_neg ?_
  rw [@isCoinbase_of_outpoints tx ⟨[], inputsOf cmd.publicKey cmd.order, []⟩ h.outpoints_eq,
    isCoinbase_inputsOf]
  exact Bool.false_ne_true

theorem value_vout : value tx.vout = (foundOf crypto ledger cmd).1 := by
  rw [h.vout_eq, value_outputsOf isInt_found h.amount_pos h.amount_le]

theorem smallEntry_vout : SmallEntry tx.vout := by
  have hamount := h.amount_pos
  rw [h.vout_eq]
  unfold outputsOf newTXOutput
  rw [subInt_eq isInt_found hamount h.amount_le]
  split
  · refine ⟨List.cons_ne_nil _ _, Nat.le_refl 2, fun out hout => ?_⟩
    rcases List.mem_cons.mp hout with rfl | hout
    · exact hamount
    · obtain rfl := List.mem_singleton.mp hout
      dsimp only
      omega
  · refine ⟨List.cons_ne_nil _ _, Nat.le_succ 1, fun out hout => ?_⟩
    obtain rfl := List.mem_singleton.mp hout
    exact hamount

theorem nodup_order : (cmd.order.map (·.1)).Nodup :=
  (h.order_perm.map _).nodup_iff.mpr (UTXOSet.findSpendableOutputs_spec _ _ _).1

theorem group_of_mem {group : Bytes × List Nat} (hgroup : group ∈ cmd.order) :
    ledger.chainstate.get group.1 = some (outsOf ledger group.1) ∧ group.2 ≠ [] ∧
      Positions 0 (outsOf ledger group.1) group.2 :=
  (UTXOSet.findSpendableOutputs_spec _ _ _).2.1 group (h.order_perm.mem_iff.mp hgroup)

theorem sum_picked : (cmd.order.map fun group => picked (outsOf ledger group.1) group.2).sum =
    takenTotal crypto ledger cmd := by
  rw [takenTotal, taken, UTXOSet.reaching_owned, List.map_map]
  exact (h.order_perm.map _).sum_eq.trans (picked_eq (outsOf ledger) _)

omit h in
theorem foundOf_fst : (foundOf crypto ledger cmd).1 = wrap (takenTotal crypto ledger cmd) := by
  rw [foundOf, (UTXOSet.findSpendableOutputs_spec _ _ _).2.2.1, takenTotal, taken,
    UTXOSet.reaching_owned, List.map_map]
  exact congrArg wrap (picked_eq (outsOf ledger) _)

/-- The outputs are of different transactions when one of each is taken. -/
theorem apart_iff : ((taken crypto ledger cmd).map (·.1)).Nodup ↔
    ∀ group ∈ cmd.order, group.2.length = 1 := by
  rw [taken, (UTXOSet.findSpendableOutputs_spec _ _ _).2.2.2]
  exact ⟨fun hall group hgroup => hall group (h.order_perm.mem_iff.mp hgroup),
    fun hall group hgroup => hall group (h.order_perm.mem_iff.mpr hgroup)⟩

theorem nodup_txids_iff : (tx.spends.map (·.txid)).Nodup ↔
    ∀ group ∈ cmd.order, group.2.length = 1 := by
  have htxids := congrArg (List.map Prod.fst) h.outpoints_eq
  rw [List.map_map, List.map_map] at htxids
  have htxids : tx.vin.map (·.txid) = (inputsOf cmd.publicKey cmd.order).map (·.txid) := htxids
  rw [h.spends_eq, htxids, txids_inputsOf]
  exact nodup_flatMap_replicate h.nodup_order fun group hgroup => (h.group_of_mem hgroup).2.1

section Kept

variable (hkept : Kept ledger) (hids : DistinctIds crypto ledger cmd)

include hkept

omit h in
theorem mem_keys {id : Bytes} {outs : List TXOutput}
    (hget : ledger.chainstate.get id = some outs) :
    ∃ old ∈ transactions ledger.chain, old.id = id := by
  refine List.mem_map.mp (hkept.keys id ?_)
  rw [hget]
  exact Option.some_ne_none outs

include hids

theorem coinbase_not_key : ledger.chainstate.get (coinbaseOf crypto cmd).id = none := by
  cases hget : ledger.chainstate.get (coinbaseOf crypto cmd).id with
  | none => rfl
  | some outs =>
      obtain ⟨old, hold, hid⟩ := mem_keys hkept hget
      have hunsigned := hids.1 tx h.created _ List.mem_cons_self old
        (List.mem_cons_of_mem _ hold) hid.symm
      exact absurd hunsigned (hids.2 old hold)

omit hkept in
theorem coinbase_ne : (coinbaseOf crypto cmd).id ≠ tx.id := by
  intro hid
  have hunsigned := hids.1 tx h.created _ List.mem_cons_self tx List.mem_cons_self hid
  have hcoinbase := isCoinbase_of_outpoints (outpoints_of_unsigned hunsigned)
  rw [coinbaseOf, isCoinbase_newCoinbaseTX] at hcoinbase
  have hspends := h.spends_eq
  rw [Transaction.spends, if_pos hcoinbase.symm] at hspends
  rw [Transaction.isCoinbase, ← hspends] at hcoinbase
  cases hcoinbase

/-- An entry under the ID of the new transaction is that of one with the same inputs. -/
theorem exists_repeated {outs : List TXOutput}
    (hget : ledger.chainstate.get tx.id = some outs) : ∃ old ∈ transactions ledger.chain,
      old.id = tx.id ∧ tx.spends.map outpoint = old.spends.map outpoint := by
  obtain ⟨old, hold, hid⟩ := mem_keys hkept hget
  have hunsigned := hids.1 tx h.created tx (List.mem_cons_of_mem _ List.mem_cons_self) old
    (List.mem_cons_of_mem _ hold) hid.symm
  exact ⟨old, hold, hid, spends_of_unsigned hunsigned⟩

theorem own_id {vin : TXInput} (hvin : vin ∈ tx.spends) : vin.txid ≠ tx.id := by
  intro heq
  have hmem : vin.txid ∈ (inputsOf cmd.publicKey cmd.order).map (·.txid) := by
    have htxids := congrArg (List.map Prod.fst) h.outpoints_eq
    rw [List.map_map, List.map_map] at htxids
    have htxids : tx.vin.map (·.txid) = (inputsOf cmd.publicKey cmd.order).map (·.txid) :=
      htxids
    rw [← htxids, ← h.spends_eq]
    exact List.mem_map_of_mem hvin
  rw [txids_inputsOf] at hmem
  obtain ⟨group, hgroup, hid⟩ := List.mem_flatMap.mp hmem
  have hid := List.eq_of_mem_replicate hid
  have hget := (h.group_of_mem hgroup).1
  rw [← hid, heq] at hget
  obtain ⟨old, hold, hold', hpoints⟩ := h.exists_repeated hkept hids hget
  have hpoint : outpoint vin ∈ old.spends.map outpoint :=
    hpoints ▸ List.mem_map_of_mem hvin
  obtain ⟨vin', hvin', hpoint⟩ := List.mem_map.mp hpoint
  refine hkept.own old hold vin' hvin' ?_
  rw [hold', ← heq]
  exact congrArg Prod.fst hpoint

theorem tx_id_not_mem : tx.id ∉ cmd.order.map (·.1) := by
  intro hmem
  obtain ⟨group, hgroup, hid⟩ := List.mem_map.mp hmem
  obtain ⟨p, hp⟩ := List.exists_mem_of_ne_nil _ (h.group_of_mem hgroup).2.1
  have hvin : outpoint ⟨group.1, p, [], cmd.publicKey⟩ ∈ tx.spends.map outpoint := by
    rw [h.spends_eq, h.outpoints_eq]
    exact List.mem_map_of_mem (List.mem_flatMap.mpr ⟨group, hgroup,
      List.mem_map_of_mem hp⟩)
  obtain ⟨vin, hvin, hpoint⟩ := List.mem_map.mp hvin
  refine h.own_id hkept hids hvin ?_
  rw [← hid]
  exact congrArg Prod.fst hpoint

/-- The coinbase transaction has been put where nothing was. -/
theorem get_coinbase_of_mem {group : Bytes × List Nat} (hgroup : group ∈ cmd.order) :
    (ledger.chainstate.set (coinbaseOf crypto cmd).id
      (some (coinbaseOf crypto cmd).vout)).get group.1 = some (outsOf ledger group.1) := by
  have hget := (h.group_of_mem hgroup).1
  rw [Lib.Mapping.get_set_of_ne _ _ fun heq => ?_, hget]
  rw [heq, h.coinbase_not_key hkept hids] at hget
  cases hget

/-- A block adds the subsidy to the chainstate, and what is left of the entries that two
inputs name, less the entry that the new transaction replaces. -/
theorem chainstateValue_eq (hfits : IsInt (takenTotal crypto ledger cmd)) : ∃ left, 0 ≤ left ∧
    (left = 0 ↔ ∀ group ∈ cmd.order, group.2.length = 1) ∧
    chainstateValue ledger'.chainstate + value (outsOf ledger tx.id) =
      chainstateValue ledger.chainstate + subsidy + left := by
  obtain ⟨spent, hspent, heq⟩ := h.spent
  rw [h.spends_eq] at hspent
  have hcoinbase := Lib.Mapping.total_set (fun _ entry => value (Option.getD entry []))
    ledger.chainstate (coinbaseOf crypto cmd).id (some (coinbaseOf crypto cmd).vout) value_nil
  rw [h.coinbase_not_key hkept hids] at hcoinbase
  obtain ⟨left, hleft, honce, hvalue⟩ := spend_value hspent h.outpoints_eq h.nodup_order
    fun group hgroup => ⟨h.get_coinbase_of_mem hkept hids hgroup,
      hkept.entries _ _ (h.group_of_mem hgroup).1, (h.group_of_mem hgroup).2.2,
      (h.group_of_mem hgroup).2.1⟩
  have hnew := Lib.Mapping.total_set (fun _ entry => value (Option.getD entry []))
    spent tx.id (some tx.vout) value_nil
  rw [← heq, spend_get_of_not_mem hspent h.outpoints_eq (h.tx_id_not_mem hkept hids),
    Lib.Mapping.get_set_of_ne _ _ (h.coinbase_ne hids).symm] at hnew
  refine ⟨left, hleft, honce, ?_⟩
  have hout := h.value_vout
  rw [foundOf_fst, wrap_eq_self_iff.mpr hfits] at hout
  rw [h.sum_picked] at hvalue
  change chainstateValue _ + 0 = chainstateValue _ + (subsidy + 0) at hcoinbase
  change chainstateValue _ + value (outsOf ledger tx.id) = chainstateValue _ + value tx.vout
    at hnew
  omega

/-- An entry after the command: of the new transaction, of the coinbase transaction, or
what is left of one before. -/
theorem entry_cases {id : Bytes} {outs : List TXOutput}
    (hget : ledger'.chainstate.get id = some outs) :
    (id = tx.id ∧ outs = tx.vout) ∨
    (id = (coinbaseOf crypto cmd).id ∧ outs = (coinbaseOf crypto cmd).vout) ∨
    ∃ old, ledger.chainstate.get id = some old ∧ outs.Sublist old ∧ outs ≠ [] := by
  obtain ⟨spent, hspent, heq⟩ := h.spent
  rw [h.spends_eq] at hspent
  rw [heq] at hget
  by_cases htx : id = tx.id
  · rw [htx, Lib.Mapping.get_set_self] at hget
    exact .inl ⟨htx, (Option.some.inj hget).symm⟩
  · rw [Lib.Mapping.get_set_of_ne _ _ htx] at hget
    by_cases hmem : id ∈ cmd.order.map (·.1)
    · obtain ⟨group, hgroup, rfl⟩ := List.mem_map.mp hmem
      have hold := (h.group_of_mem hgroup).1
      rw [spend_get hspent h.outpoints_eq h.nodup_order hgroup
        (h.get_coinbase_of_mem hkept hids hgroup) (hkept.entries _ _ hold).ne_nil, stored]
        at hget
      split at hget
      · cases hget
      · rename_i hne
        obtain rfl := Option.some.inj hget
        exact .inr (.inr ⟨_, hold, Lib.eraseAll_sublist _ _, hne⟩)
    · rw [spend_get_of_not_mem hspent h.outpoints_eq hmem] at hget
      by_cases hcoinbase : id = (coinbaseOf crypto cmd).id
      · rw [hcoinbase, Lib.Mapping.get_set_self] at hget
        exact .inr (.inl ⟨hcoinbase, (Option.some.inj hget).symm⟩)
      · rw [Lib.Mapping.get_set_of_ne _ _ hcoinbase] at hget
        exact .inr (.inr ⟨outs, hget, .refl _, (hkept.entries _ _ hget).ne_nil⟩)

theorem kept (hapart : (tx.spends.map (·.txid)).Nodup) : Kept ledger' := by
  refine ⟨fun id hget => ?_, fun id outs hget => ?_, ?_, ?_⟩
  · obtain ⟨outs, hget⟩ := Option.ne_none_iff_exists'.mp hget
    rw [h.chain_eq, List.map_cons, List.map_cons, List.mem_cons, List.mem_cons]
    rcases h.entry_cases hkept hids hget with ⟨rfl, _⟩ | ⟨rfl, _⟩ | ⟨old, hold, _⟩
    · exact .inr (.inl rfl)
    · exact .inl rfl
    · obtain ⟨tx, htx, hid⟩ := mem_keys hkept hold
      exact .inr (.inr (List.mem_map.mpr ⟨tx, htx, hid⟩))
  · rcases h.entry_cases hkept hids hget with ⟨_, rfl⟩ | ⟨_, rfl⟩ | ⟨old, hold, hsub, hne⟩
    · exact h.smallEntry_vout
    · refine ⟨List.cons_ne_nil _ _, Nat.le_succ 1, fun out hout => ?_⟩
      obtain rfl := List.mem_singleton.mp hout
      exact show (0 : Int) < subsidy by decide
    · exact (hkept.entries _ _ hold).sublist hsub hne
  · rw [h.chain_eq]
    intro other hother vin hvin
    rcases List.mem_cons.mp hother with rfl | hother
    · rw [spends_coinbaseOf] at hvin
      cases hvin
    · rcases List.mem_cons.mp hother with rfl | hother
      · exact h.own_id hkept hids hvin
      · exact hkept.own other hother vin hvin
  · rw [h.chain_eq]
    intro other hother
    rcases List.mem_cons.mp hother with rfl | hother
    · rw [spends_coinbaseOf]
      exact List.nodup_nil
    · rcases List.mem_cons.mp hother with rfl | hother
      · exact hapart
      · exact hkept.apart other hother

/-- The books are kept exactly when the chainstate grows by the subsidy. -/
theorem keepsBooks_iff (hfits : IsInt (takenTotal crypto ledger cmd)) :
    KeepsBooks crypto ledger cmd ↔
      chainstateValue ledger'.chainstate = chainstateValue ledger.chainstate + subsidy := by
  obtain ⟨left, hleft, honce, hvalue⟩ := h.chainstateValue_eq hkept hids hfits
  unfold KeepsBooks
  rw [h.created, h.apart_iff, ← honce]
  constructor
  · rintro ⟨rfl, _, hnone⟩
    have hnone := hnone tx rfl
    rw [outsOf, hnone, Option.getD_none, value_nil] at hvalue
    omega
  · intro hgrows
    cases hget : ledger.chainstate.get tx.id with
    | none =>
        rw [outsOf, hget, Option.getD_none, value_nil] at hvalue
        refine ⟨by omega, hfits, fun other hother => ?_⟩
        obtain rfl := Option.some.inj hother
        exact hget
    | some outs =>
        -- A transaction that is repeated took one output of each entry the first time.
        obtain ⟨old, hold, _, hpoints⟩ := h.exists_repeated hkept hids hget
        have htxids := congrArg (List.map Prod.fst) hpoints
        rw [List.map_map, List.map_map] at htxids
        have htxids : tx.spends.map (·.txid) = old.spends.map (·.txid) := htxids
        have hapart := hkept.apart old hold
        rw [← htxids, h.nodup_txids_iff, ← honce] at hapart
        have hpos := (hkept.entries _ _ hget).value_pos
        rw [outsOf, hget, Option.getD_some] at hvalue
        omega

end Kept

end Sent

end Step

/-! Runs. -/

theorem findUTXO_coinbase {block : Block} {tx : Transaction} {out : TXOutput}
    (hblock : block.transactions = [tx]) (hcoinbase : tx.isCoinbase = true)
    (hvout : tx.vout = [out]) : findUTXO [block] = (∅ : Bucket).set tx.id (some [out]) := by
  rw [findUTXO_eq, transactions_cons, hblock, List.singleton_append, List.foldl_cons,
    Scan.transaction_eq, Transaction.spends, if_pos hcoinbase, hvout]
  rfl

theorem kept_create {crypto : Crypto} {timestamp : Int} {pubKeyHash : Bytes}
    {genesis : Ledger} (h : Ledger.create crypto timestamp pubKeyHash = some genesis) :
    Kept genesis ∧ chainstateValue genesis.chainstate = subsidy * genesis.chain.length := by
  obtain ⟨chain, hchain, h⟩ := Option.bind_eq_some_iff.mp h
  obtain ⟨chainstate, hbuilt, rfl⟩ := Option.map_eq_some_iff.mp h
  obtain ⟨block, hblock, rfl⟩ := Option.map_eq_some_iff.mp hchain
  have htxs := transactions_of_newBlock hblock
  generalize hcoinbase : newCoinbaseTX crypto pubKeyHash
    "The Times 03/Jan/2009 Chancellor on brink of second bailout for banks" [] = tx at htxs
  have hisCoinbase : tx.isCoinbase = true := hcoinbase ▸ isCoinbase_newCoinbaseTX _ _ _ _
  have hvout : tx.vout = [newTXOutput subsidy pubKeyHash] := by rw [← hcoinbase]; rfl
  have hspends : tx.spends = [] := if_pos hisCoinbase
  have htransactions : transactions [block] = [tx] := by rw [transactions_cons, htxs]; rfl
  have hstate : ∀ id, chainstate.get id =
      ((∅ : Bucket).set tx.id (some [newTXOutput subsidy pubKeyHash])).get id := by
    intro id
    rw [reindex_get hbuilt, findUTXO_coinbase htxs hisCoinbase hvout]
  have hget : ∀ id outs, chainstate.get id = some outs →
      id = tx.id ∧ outs = [newTXOutput subsidy pubKeyHash] := by
    intro id outs hget
    rw [hstate] at hget
    by_cases hid : id = tx.id
    · rw [hid, Lib.Mapping.get_set_self] at hget
      exact ⟨hid, (Option.some.inj hget).symm⟩
    · rw [Lib.Mapping.get_set_of_ne _ _ hid] at hget
      cases hget
  refine ⟨⟨fun id hne => ?_, fun id outs hsome => ?_, ?_, ?_⟩, ?_⟩
  · obtain ⟨outs, hsome⟩ := Option.ne_none_iff_exists'.mp hne
    rw [(hget id outs hsome).1, htransactions]
    exact List.mem_cons_self
  · rw [(hget id outs hsome).2]
    refine ⟨List.cons_ne_nil _ _, Nat.le_succ 1, fun out hout => ?_⟩
    obtain rfl := List.mem_singleton.mp hout
    exact show (0 : Int) < subsidy by decide
  · rw [htransactions]
    intro other hother vin hvin
    obtain rfl := List.mem_singleton.mp hother
    rw [hspends] at hvin
    cases hvin
  · rw [htransactions]
    intro other hother
    obtain rfl := List.mem_singleton.mp hother
    rw [hspends]
    exact List.nodup_nil
  · have hset := Lib.Mapping.total_set (fun _ entry => value (Option.getD entry []))
      (∅ : Bucket) tx.id (some [newTXOutput subsidy pubKeyHash]) value_nil
    have hsame := Lib.Mapping.total_congr (fun _ entry => value (Option.getD entry []))
      (fun _ => value_nil) hstate
    change chainstateValue chainstate = subsidy
    change chainstateValue chainstate = chainstateValue _ at hsame
    change chainstateValue _ + 0 = 0 + (subsidy + 0) at hset
    omega

/-- The outputs that a command takes are worth no more than the chainstate. -/
theorem takenTotal_bounds {crypto : Crypto} {ledger : Ledger} (hkept : Kept ledger)
    (cmd : SendCommand) : 0 ≤ takenTotal crypto ledger cmd ∧
      takenTotal crypto ledger cmd ≤ chainstateValue ledger.chainstate := by
  have hpos : ∀ entry ∈ cursor ledger.chainstate, ∀ out ∈ entry.2, 0 ≤ out.value :=
    fun entry hentry out hout =>
      Int.le_of_lt ((hkept.entries _ _ (mem_cursor.mp hentry)).positive out hout)
  have howned : ∀ n ∈ (owned (hashPubKey crypto cmd.publicKey)
      (cursor ledger.chainstate)).map (·.2.value), 0 ≤ n := by
    refine List.forall_mem_map.mpr fun place hplace => ?_
    obtain ⟨entry, hentry, hplace⟩ := List.mem_flatMap.mp hplace
    obtain ⟨out, hout, rfl⟩ := List.mem_map.mp hplace
    exact hpos entry hentry out (List.mem_filter.mp hout).1
  have hsub : ((taken crypto ledger cmd).map (·.2.value)).Sublist ((owned
      (hashPubKey crypto cmd.publicKey) (cursor ledger.chainstate)).map (·.2.value)) :=
    (reach_starts _ _ _ _).sublist.map _
  refine ⟨List.sum_nonneg fun n hn => howned n (hsub.subset hn), ?_⟩
  refine (hsub.sum_le_sum howned).trans ?_
  rw [chainstateValue, total_cursor value value_nil, owned, List.map_flatMap,
    List.flatMap_def, List.sum_flatten, List.map_map]
  refine List.sum_le_sum fun entry hentry => ?_
  rw [Function.comp_apply, List.map_map]
  refine (List.filter_sublist.map TXOutput.value).sum_le_sum ?_
  exact List.forall_mem_map.mpr (hpos entry hentry)

theorem ledger_step {crypto : Crypto} {ledger ledger' : Ledger} {cmd : SendCommand}
    (hkept : Kept ledger)
    (hbooks : chainstateValue ledger.chainstate = subsidy * ledger.chain.length)
    (hids : DistinctIds crypto ledger cmd) (hsend : ledger.send crypto cmd = some ledger') :
    (KeepsBooks crypto ledger cmd → Kept ledger' ∧
      chainstateValue ledger'.chainstate = subsidy * ledger'.chain.length) ∧
    (IsInt (subsidy * ledger.chain.length) →
      chainstateValue ledger'.chainstate = subsidy * ledger'.chain.length →
        KeepsBooks crypto ledger cmd) := by
  obtain ⟨tx, hsent⟩ := exists_sent hsend
  rw [hsent.length_eq, Nat.cast_succ, Int.mul_add, Int.mul_one, ← hbooks]
  constructor
  · intro hkeeps
    exact ⟨hsent.kept hkept hids (hsent.nodup_txids_iff.mpr (hsent.apart_iff.mp hkeeps.1)),
      (hsent.keepsBooks_iff hkept hids hkeeps.2.1).mp hkeeps⟩
  · intro hfits hgrows
    obtain ⟨hlow, hhigh⟩ := @takenTotal_bounds crypto ledger hkept cmd
    exact (hsent.keepsBooks_iff hkept hids ⟨by omega, hhigh.trans_lt hfits.2⟩).mpr hgrows

theorem length_run {crypto : Crypto} {genesis : Ledger} (run : LedgerRun crypto genesis) :
    ∀ k, k ≤ run.length → (run.state k).chain.length = genesis.chain.length + k := by
  refine run.induct (by rw [run.starts, Nat.add_zero]) fun k hk ih => ?_
  obtain ⟨tx, hsent⟩ := exists_sent (run.steps k hk)
  rw [hsent.length_eq, ih, Nat.add_assoc]

/-- The chainstate has the subsidies of all blocks throughout a run of `send -mine` when
every command keeps the books; and only then, as long as the subsidies add up to an
`int`. -/
theorem bookkeeping_iff {crypto : Crypto} {timestamp : Int} {pubKeyHash : Bytes}
    {genesis : Ledger} (hgenesis : Ledger.create crypto timestamp pubKeyHash = some genesis)
    (run : LedgerRun crypto genesis) (hids : run.AllSteps (DistinctIds crypto)) :
    (run.AllSteps (KeepsBooks crypto) → ∀ k, k ≤ run.length →
      chainstateValue (run.state k).chainstate = subsidy * (run.state k).chain.length) ∧
    (IsInt (subsidy * (run.state run.length).chain.length) →
      (∀ k, k ≤ run.length →
        chainstateValue (run.state k).chainstate = subsidy * (run.state k).chain.length) →
      run.AllSteps (KeepsBooks crypto)) := by
  obtain ⟨hkept, hbooks⟩ := kept_create hgenesis
  constructor
  · intro hkeeps k hk
    have hboth : Kept (run.state k) ∧ chainstateValue (run.state k).chainstate =
        subsidy * (run.state k).chain.length := by
      refine run.induct (P := fun k => Kept (run.state k) ∧
        chainstateValue (run.state k).chainstate = subsidy * (run.state k).chain.length)
        ?_ (fun k hk ih => ?_) k hk
      · rw [run.starts]
        exact ⟨hkept, hbooks⟩
      · exact (ledger_step ih.1 ih.2 (hids k hk) (run.steps k hk)).1 (hkeeps k hk)
    exact hboth.2
  · intro hfits hall
    have hboth : ∀ k, k ≤ run.length → Kept (run.state k) ∧
        ∀ j, j < k → KeepsBooks crypto (run.state j) (run.act j) := by
      refine run.induct ⟨by rwa [run.starts], nofun⟩ fun k hk ih => ?_
      have hfits : IsInt (subsidy * (run.state k).chain.length) := by
        have hlength := length_run run k (Nat.le_of_lt hk)
        have hlast := length_run run run.length (Nat.le_refl _)
        unfold IsInt subsidy at hfits ⊢
        omega
      obtain ⟨hnext, hback⟩ := ledger_step ih.1 (hall k (Nat.le_of_lt hk)) (hids k hk)
        (run.steps k hk)
      have hkeeps := hback hfits (hall (k + 1) hk)
      refine ⟨(hnext hkeeps).1, fun j hj => ?_⟩
      rcases Nat.lt_succ_iff_lt_or_eq.mp hj with hlt | rfl
      · exact ih.2 j hlt
      · exact hkeeps
    intro k hk
    exact (hboth run.length (Nat.le_refl _)).2 k hk

section Sends

/-! A node with hashes of one byte, the length of what is hashed, and no check of
signatures. The genesis transaction has the ID `46`. -/

def senderCrypto : Crypto where
  sha256 bytes := [UInt8.ofNat bytes.length]
  ripemd160 := id
  ecdsaVerify _ _ _ _ := true
  serialize tx := tx.vin.flatMap (·.pubKey) ++ tx.vout.flatMap (·.pubKeyHash)

def senderGenesis : Ledger :=
  (Ledger.create senderCrypto 0 [7]).getD ⟨[], ∅⟩

theorem create_sender : Ledger.create senderCrypto 0 [7] = some senderGenesis := by
  have hsome : (Ledger.create senderCrypto 0 [7]).isSome := by decide +kernel
  obtain ⟨genesis, hgenesis⟩ := Option.isSome_iff_exists.mp hsome
  rw [senderGenesis, hgenesis, Option.getD_some]

def sendOf (toHash : Bytes) (amount : Int) (order : List (Bytes × List Nat))
    (randData : Bytes) : SendCommand where
  fromHash := [7]
  toHash
  amount
  publicKey := List.replicate 7 0
  order
  ecdsaSign _ _ := []
  randData
  timestamp := 0

/-- Four of the ten coins of the genesis block come back to the sender, and go on to
another one. -/
def paysOnce : LedgerRun senderCrypto senderGenesis :=
  .ofActions [sendOf [7] 4 [([70], [0])] (List.replicate 10 0),
    sendOf [8] 4 [([9], [0])] (List.replicate 11 0)] (by decide +kernel)

theorem bookkeeping_paysOnce : chainstateValue (paysOnce.state 2).chainstate =
    subsidy * (paysOnce.state 2).chain.length :=
  (bookkeeping_iff create_sender paysOnce (by decide +kernel)).1 (by decide +kernel) 2
    (by decide)

/-- Ten coins need both outputs of the first transaction. -/
def spendsBoth : LedgerRun senderCrypto senderGenesis :=
  .ofActions [sendOf [7] 4 [([70], [0])] (List.replicate 10 0),
    sendOf [8] 10 [([9], [0, 1])] (List.replicate 11 0)] (by decide +kernel)

theorem books_not_kept : ¬ ∀ (crypto : Crypto) (timestamp : Int) (pubKeyHash : Bytes)
    (genesis : Ledger), Ledger.create crypto timestamp pubKeyHash = some genesis →
    ∀ run : LedgerRun crypto genesis, run.AllSteps (DistinctIds crypto) →
      ∀ k, k ≤ run.length → chainstateValue (run.state k).chainstate =
        subsidy * (run.state k).chain.length := by
  intro hall
  have hbooks := hall senderCrypto 0 [7] senderGenesis create_sender spendsBoth
    (by decide +kernel) 2 (by decide)
  revert hbooks
  decide +kernel

end Sends

end BlockchainTutorial.Bitcoin
