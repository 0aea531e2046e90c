import BlockchainTutorial.Lib.Positions
import BlockchainTutorial.Bitcoin.Unspent

namespace BlockchainTutorial.Bitcoin

/-! `Update` takes the index that an input names for a position in the stored list.
The two agree while all outputs before it are in the list. -/

open Lib (eraseAll Exact)

namespace UTXOSet

/-! One input. -/

theorem updatedOuts_of_lt {vout : Int} {outIdx : Nat} (h : vout < outIdx)
    (outs : List TXOutput) : updatedOuts vout outIdx outs = outs := by
  induction outs generalizing outIdx with
  | nil => rfl
  | cons out outs ih =>
      rw [updatedOuts, if_pos (by omega), ih (by omega)]

theorem updatedOuts_add (outIdx p : Nat) (outs : List TXOutput) :
    updatedOuts ((outIdx + p : Nat) : Int) outIdx outs = outs.eraseIdx p := by
  induction outs generalizing outIdx p with
  | nil => rfl
  | cons out outs ih =>
      cases p with
      | zero =>
          rw [updatedOuts, if_neg (by simp), updatedOuts_of_lt (by omega)]
          rfl
      | succ p =>
          have hrest := ih (outIdx + 1) p
          rw [show outIdx + 1 + p = outIdx + (p + 1) by omega] at hrest
          rw [updatedOuts, if_pos (by omega), hrest]
          rfl

theorem updatedOuts_eq {vout : Int} (h : 0 ≤ vout) (outs : List TXOutput) :
    updatedOuts vout 0 outs = outs.eraseIdx vout.toNat := by
  have hadd := updatedOuts_add 0 vout.toNat outs
  rwa [Nat.zero_add, Int.toNat_of_nonneg h] at hadd

theorem length_le_updatedOuts (vout : Int) (outIdx : Nat) (outs : List TXOutput) :
    outs.length ≤ (updatedOuts vout outIdx outs).length + 1 := by
  induction outs generalizing outIdx with
  | nil => exact Nat.zero_le _
  | cons out outs ih =>
      unfold updatedOuts
      split
      · have hrest := ih (outIdx + 1)
        rw [List.length_cons, List.length_cons]
        omega
      · rename_i heq
        rw [updatedOuts_of_lt (by omega), List.length_cons]

@[simp] theorem getD_stored (outs : List TXOutput) : (stored outs).getD [] = outs := by
  unfold stored
  split <;> simp_all

/-- What an input does to the entry of the transaction that it names. -/
def follow (entry : Option (List TXOutput)) (vout : Int) : Option (List TXOutput) :=
  entry.bind fun outs => stored (updatedOuts vout 0 outs)

theorem follow_stored (outs : List TXOutput) (vout : Int) :
    follow (stored outs) vout = stored (updatedOuts vout 0 outs) := by
  unfold follow
  by_cases houts : outs = []
  · subst houts
    rfl
  · rw [stored, if_neg houts, Option.bind_some]

theorem foldl_follow {vouts : List Int} (h : ∀ vout ∈ vouts, 0 ≤ vout)
    (outs : List TXOutput) :
    vouts.foldl follow (stored outs) = stored (eraseAll outs (vouts.map Int.toNat)) := by
  induction vouts generalizing outs with
  | nil => rfl
  | cons vout vouts ih =>
      rw [List.foldl_cons, follow_stored, updatedOuts_eq (h vout List.mem_cons_self),
        ih fun other hmem => h other (List.mem_cons_of_mem _ hmem), List.map_cons,
        Lib.eraseAll_cons]

theorem updateInput_get {bucket bucket' : Bucket} {vin : TXInput}
    (h : updateInput bucket vin = some bucket') (id : Bytes) :
    bucket'.get id = (named [vin] id).foldl follow (bucket.get id) := by
  unfold updateInput at h
  cases hentry : bucket.get vin.txid with
  | none => simp [hentry] at h
  | some outs =>
      simp only [hentry] at h
      by_cases hid : vin.txid = id
      · subst hid
        have hnamed : named [vin] vin.txid = [vin.vout] := by simp [named]
        rw [hnamed, hentry, List.foldl_cons, List.foldl_nil, follow, Option.bind_some, stored]
        split at h
        · rename_i hnone
          cases h
          rw [Lib.Mapping.get_set_self, if_pos hnone]
        · rename_i hsome
          obtain ⟨_, rfl⟩ := put_eq_some h
          rw [Lib.Mapping.get_set_self, if_neg hsome]
      · have hnamed : named [vin] id = [] := by simp [named, hid]
        rw [hnamed, List.foldl_nil]
        split at h
        · cases h
          exact Lib.Mapping.get_set_of_ne _ _ (Ne.symm hid)
        · obtain ⟨_, rfl⟩ := put_eq_some h
          exact Lib.Mapping.get_set_of_ne _ _ (Ne.symm hid)

theorem updateInputs_get {bucket bucket' : Bucket} {vins : List TXInput}
    (h : vins.foldlM updateInput bucket = some bucket') (id : Bytes) :
    bucket'.get id = (named vins id).foldl follow (bucket.get id) := by
  induction vins generalizing bucket with
  | nil =>
      cases h
      rfl
  | cons vin vins ih =>
      obtain ⟨next, hnext, hrest⟩ := Option.bind_eq_some_iff.mp h
      rw [ih hrest, updateInput_get hnext, ← List.foldl_append, ← named_append]
      rfl

/-! Transactions. -/

theorem updateTransaction_eq (bucket : Bucket) (tx : Transaction) :
    updateTransaction bucket tx =
      (tx.spends.foldlM updateInput bucket).bind fun bucket => put bucket tx.id tx.vout := by
  unfold updateTransaction Transaction.spends
  split <;> rfl

theorem updateTransaction_eq_some {bucket bucket' : Bucket} {tx : Transaction} :
    updateTransaction bucket tx = some bucket' ↔ Storable tx.id ∧
      ∃ spent, tx.spends.foldlM updateInput bucket = some spent ∧
        bucket' = spent.set tx.id (some tx.vout) := by
  rw [updateTransaction_eq, Option.bind_eq_some_iff]
  constructor
  · rintro ⟨spent, hspent, hput⟩
    obtain ⟨hid, heq⟩ := put_eq_some hput
    exact ⟨hid, spent, hspent, heq⟩
  · rintro ⟨hid, spent, hspent, rfl⟩
    exact ⟨spent, hspent, if_pos hid⟩

theorem update_storable {bucket bucket' : Bucket} {txs : List Transaction}
    (h : txs.foldlM updateTransaction bucket = some bucket') :
    ∀ tx ∈ txs, Storable tx.id := by
  induction txs generalizing bucket with
  | nil => exact fun tx htx => by cases htx
  | cons tx txs ih =>
      obtain ⟨next, hnext, hrest⟩ := Option.bind_eq_some_iff.mp h
      exact List.forall_mem_cons.mpr ⟨(updateTransaction_eq_some.mp hnext).1, ih hrest⟩

theorem update_get {bucket bucket' : Bucket} {txs : List Transaction}
    (h : txs.foldlM updateTransaction bucket = some bucket') {id : Bytes}
    (hid : id ∉ txs.map (·.id)) :
    bucket'.get id = (named (inputs txs) id).foldl follow (bucket.get id) := by
  induction txs generalizing bucket with
  | nil =>
      cases h
      rfl
  | cons tx txs ih =>
      obtain ⟨next, hnext, hrest⟩ := Option.bind_eq_some_iff.mp h
      obtain ⟨_, spent, hspent, rfl⟩ := updateTransaction_eq_some.mp hnext
      rw [List.map_cons, List.mem_cons, not_or] at hid
      rw [ih hrest hid.2, Lib.Mapping.get_set_of_ne _ _ hid.1, updateInputs_get hspent,
        ← List.foldl_append, ← named_append]
      rfl

theorem update_get_new {bucket bucket' : Bucket} {txs : List Transaction}
    (h : txs.foldlM updateTransaction bucket = some bucket') {tx : Transaction}
    (htx : tx ∈ txs) (hdistinct : (txs.map (·.id)).Nodup)
    (hnamed : named (inputs txs) tx.id = []) : bucket'.get tx.id = some tx.vout := by
  obtain ⟨front, back, rfl⟩ := List.append_of_mem htx
  rw [List.foldlM_append] at h
  obtain ⟨first, _, h⟩ := Option.bind_eq_some_iff.mp h
  obtain ⟨next, hnext, hrest⟩ := Option.bind_eq_some_iff.mp h
  obtain ⟨_, spent, _, rfl⟩ := updateTransaction_eq_some.mp hnext
  rw [List.map_append, List.map_cons] at hdistinct
  have hback := (List.nodup_cons.mp (List.nodup_append.mp hdistinct).2.1).1
  rw [inputs_append, inputs_cons, named_append, named_append, List.append_eq_nil_iff,
    List.append_eq_nil_iff] at hnamed
  rw [update_get hrest hback, hnamed.2.2, List.foldl_nil, Lib.Mapping.get_set_self]

/-! Every ID that an input names is found, and what is left of it can be put. -/

structure Enough (bucket : Bucket) (vins : List TXInput) : Prop where
  found : ∀ id, (named vins id).length ≤ ((bucket.get id).getD []).length
  storable : ∀ id, bucket.get id ≠ none → Storable id

theorem updateInput_enough {bucket : Bucket} {vin : TXInput} {rest : List TXInput}
    (h : Enough bucket (vin :: rest)) :
    ∃ bucket', updateInput bucket vin = some bucket' ∧ Enough bucket' rest := by
  have hself := h.found vin.txid
  have hcount : ∀ id, (named (vin :: rest) id).length =
      (named [vin] id).length + (named rest id).length := by
    intro id
    rw [← List.length_append, ← named_append]
    rfl
  have hone : (named [vin] vin.txid).length = 1 := by simp [named]
  rw [hcount, hone] at hself
  cases hentry : bucket.get vin.txid with
  | none =>
      rw [hentry, Option.getD_none, List.length_nil] at hself
      omega
  | some outs =>
      have hstorable : Storable vin.txid :=
        h.storable _ (by rw [hentry]; exact Option.some_ne_none outs)
      have hupdated : ∃ bucket', updateInput bucket vin = some bucket' := by
        unfold updateInput
        rw [hentry]
        dsimp only
        split
        · exact ⟨_, rfl⟩
        · exact ⟨_, if_pos hstorable⟩
      obtain ⟨bucket', hupdated⟩ := hupdated
      refine ⟨bucket', hupdated, fun id => ?_, fun id hget => ?_⟩
      · have hid := h.found id
        rw [hcount] at hid
        rw [updateInput_get hupdated]
        by_cases heq : vin.txid = id
        · subst heq
          have hnamed : named [vin] vin.txid = [vin.vout] := by simp [named]
          rw [hnamed, hentry, List.foldl_cons, List.foldl_nil, follow, Option.bind_some,
            getD_stored]
          have hle := length_le_updatedOuts vin.vout 0 outs
          rw [hentry, Option.getD_some] at hself
          omega
        · have hnamed : named [vin] id = [] := by simp [named, heq]
          rw [hnamed, List.foldl_nil]
          omega
      · by_cases heq : vin.txid = id
        · rwa [← heq]
        · have hnamed : named [vin] id = [] := by simp [named, heq]
          rw [updateInput_get hupdated, hnamed, List.foldl_nil] at hget
          exact h.storable id hget

theorem updateInputs_enough {bucket : Bucket} {vins rest : List TXInput}
    (h : Enough bucket (vins ++ rest)) :
    ∃ bucket', vins.foldlM updateInput bucket = some bucket' ∧ Enough bucket' rest := by
  induction vins generalizing bucket with
  | nil => exact ⟨bucket, rfl, h⟩
  | cons vin vins ih =>
      obtain ⟨next, hnext, henough⟩ := updateInput_enough h
      obtain ⟨bucket', hrest, henough⟩ := ih henough
      exact ⟨bucket', Option.bind_eq_some_iff.mpr ⟨next, hnext, hrest⟩, henough⟩

theorem update_isSome {bucket : Bucket} {txs : List Transaction}
    (h : Enough bucket (inputs txs)) (hnew : ∀ tx ∈ txs, named (inputs txs) tx.id = [])
    (hstorable : ∀ tx ∈ txs, Storable tx.id) :
    ∃ bucket', txs.foldlM updateTransaction bucket = some bucket' := by
  induction txs generalizing bucket with
  | nil => exact ⟨bucket, rfl⟩
  | cons tx txs ih =>
      obtain ⟨spent, hspent, henough⟩ := updateInputs_enough h
      obtain ⟨hid, hids⟩ := List.forall_mem_cons.mp hstorable
      have hrest : ∀ other ∈ tx :: txs, named (inputs txs) other.id = [] := by
        intro other hmem
        have hnone := hnew other hmem
        rw [inputs_cons, named_append, List.append_eq_nil_iff] at hnone
        exact hnone.2
      have hset : Enough (spent.set tx.id (some tx.vout)) (inputs txs) := by
        refine ⟨fun id => ?_, fun id hget => ?_⟩
        · by_cases heq : id = tx.id
          · rw [heq, hrest tx List.mem_cons_self]
            exact Nat.zero_le _
          · rw [Lib.Mapping.get_set_of_ne _ _ heq]
            exact henough.found id
        · by_cases heq : id = tx.id
          · rwa [heq]
          · rw [Lib.Mapping.get_set_of_ne _ _ heq] at hget
            exact henough.storable id hget
      obtain ⟨bucket', hupdated⟩ := ih hset (fun other hmem =>
        hrest other (List.mem_cons_of_mem _ hmem)) hids
      exact ⟨bucket', Option.bind_eq_some_iff.mpr
        ⟨_, updateTransaction_eq_some.mpr ⟨hid, spent, hspent, rfl⟩, hupdated⟩⟩

end UTXOSet

end BlockchainTutorial.Bitcoin
