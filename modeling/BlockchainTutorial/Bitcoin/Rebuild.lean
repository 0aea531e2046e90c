import Mathlib.Data.List.GetD
import BlockchainTutorial.Bitcoin.UtxoUpdate

namespace BlockchainTutorial.Bitcoin

/-! `Update` against `Reindex`. -/

open Lib (eraseAll Exact)

/-- An input finds all outputs before its own unspent. -/
def InPlace (chain : Chain) (txs : List Transaction) : Prop :=
  ∀ front vin back, inputs txs = front ++ vin :: back → ∀ index, 0 ≤ index →
    index < vin.vout → (vin.txid, index) ∉ (front ++ inputs (transactions chain)).map outpoint

/-- The indexes that a block names of a transaction. -/
def positions (txs : List Transaction) (id : Bytes) : List Nat :=
  (named (inputs txs) id).map Int.toNat

theorem mem_map_outpoint {vins : List TXInput} {id : Bytes} {index : Int} :
    (id, index) ∈ vins.map outpoint ↔ index ∈ named vins id := by
  rw [mem_named, List.mem_map]
  simp [outpoint, Prod.ext_iff]

theorem named_eq_append {vins : List TXInput} {id : Bytes} {before after : List Int}
    {vout : Int} (h : named vins id = before ++ vout :: after) :
    ∃ front vin back, vins = front ++ vin :: back ∧ named front id = before ∧
      vin.txid = id ∧ vin.vout = vout := by
  obtain ⟨first, rest, hfilter, rfl, hrest⟩ := List.map_eq_append_iff.mp h
  obtain ⟨vin, last, rfl, rfl, _⟩ := List.map_eq_cons_iff.mp hrest
  obtain ⟨front, back, rfl, rfl, hback⟩ := List.filter_eq_append_iff.mp hfilter
  obtain ⟨others, back, rfl, hothers, hid, _⟩ := List.filter_eq_cons_iff.mp hback
  refine ⟨front ++ others, vin, back, by simp, ?_, of_decide_eq_true hid, rfl⟩
  have hnone : named others id = [] := by
    refine List.eq_nil_iff_forall_not_mem.mpr fun vout hvout => ?_
    obtain ⟨other, hmem, heq, _⟩ := mem_named.mp hvout
    exact hothers other hmem (decide_eq_true heq)
  rw [named_append, hnone, List.append_nil]
  rfl

theorem outputAt_eq_some {outs : List TXOutput} {index : Int} {out : TXOutput}
    (h : outputAt outs index = some out) :
    0 ≤ index ∧ index.toNat < outs.length ∧ outputOf outs index.toNat = out := by
  unfold outputAt at h
  split at h
  · cases h
  · obtain ⟨hlt, heq⟩ := List.getElem?_eq_some_iff.mp h
    refine ⟨by omega, hlt, ?_⟩
    rw [outputOf, List.getD_eq_getElem _ _ hlt, heq]

section Extends

variable {chain : Chain} {txs : List Transaction} {tx : Transaction}

theorem Valid.unique (hchain : Valid chain) {tx' : Transaction}
    (htx : tx ∈ transactions chain) (htx' : tx' ∈ transactions chain)
    (hid : tx.id = tx'.id) : tx = tx' :=
  List.inj_on_of_nodup_map hchain.distinct htx htx' hid

theorem Extends.mem_unspentIndexes (h : Extends chain txs) (hchain : Valid chain)
    (htx : tx ∈ transactions chain) {vout : Int}
    (hvout : vout ∈ Bitcoin.named (inputs txs) tx.id) : 0 ≤ vout ∧ vout.toNat ∈
      unspentIndexes (Bitcoin.named (inputs (transactions chain)) tx.id) tx.vout.length := by
  obtain ⟨vin, hvin, hid, rfl⟩ := mem_named.mp hvout
  obtain ⟨old, hold, holdid, out, hout⟩ := h.named vin hvin
  obtain rfl := hchain.unique htx hold (hid.symm.trans holdid.symm)
  obtain ⟨hnonneg, hlt, _⟩ := outputAt_eq_some hout
  refine ⟨hnonneg, Bitcoin.mem_unspentIndexes.mpr ⟨hlt, ?_⟩⟩
  rw [Int.toNat_of_nonneg hnonneg]
  intro hspent
  exact h.unspent vin hvin (mem_map_outpoint.mpr (hid ▸ hspent))

theorem Extends.nodup_named (h : Extends chain txs) (id : Bytes) :
    (Bitcoin.named (inputs txs) id).Nodup := by
  have hpoints : ((Bitcoin.named (inputs txs) id).map fun vout => (id, vout)) =
      ((inputs txs).filter fun vin => vin.txid = id).map outpoint := by
    rw [Bitcoin.named, List.map_map]
    refine List.map_congr_left fun vin hmem => ?_
    have hid := of_decide_eq_true (List.mem_filter.mp hmem).2
    simp [outpoint, hid]
  refine List.Nodup.of_map (fun vout => (id, vout)) ?_
  rw [hpoints]
  exact h.once.sublist (List.filter_sublist.map outpoint)

theorem Extends.nodup_positions (h : Extends chain txs) (hchain : Valid chain)
    (htx : tx ∈ transactions chain) : (positions txs tx.id).Nodup := by
  refine List.Nodup.map_on ?_ (h.nodup_named tx.id)
  intro vout hvout vout' hvout' heq
  have hnonneg := (h.mem_unspentIndexes hchain htx hvout).1
  have hnonneg' := (h.mem_unspentIndexes hchain htx hvout').1
  omega

theorem Extends.positions_subset (h : Extends chain txs) (hchain : Valid chain)
    (htx : tx ∈ transactions chain) : positions txs tx.id ⊆
      unspentIndexes (Bitcoin.named (inputs (transactions chain)) tx.id) tx.vout.length := by
  intro p hp
  obtain ⟨vout, hvout, rfl⟩ := List.mem_map.mp hp
  exact (h.mem_unspentIndexes hchain htx hvout).2

theorem Extends.unspentIndexes_append (h : Extends chain txs) (hchain : Valid chain)
    (htx : tx ∈ transactions chain) :
    unspentIndexes (Bitcoin.named (inputs txs ++ inputs (transactions chain)) tx.id)
        tx.vout.length =
      (unspentIndexes (Bitcoin.named (inputs (transactions chain)) tx.id)
        tx.vout.length).filter (· ∉ positions txs tx.id) := by
  unfold unspentIndexes
  rw [List.filter_filter]
  refine List.filter_congr fun i _ => ?_
  have hpositions : i ∈ positions txs tx.id ↔
      (i : Int) ∈ Bitcoin.named (inputs txs) tx.id := by
    constructor
    · intro hi
      obtain ⟨vout, hvout, rfl⟩ := List.mem_map.mp hi
      rwa [Int.toNat_of_nonneg (h.mem_unspentIndexes hchain htx hvout).1]
    · intro hi
      exact List.mem_map.mpr ⟨i, hi, Int.toNat_natCast i⟩
  rw [Bool.eq_iff_iff]
  simp [named_append, hpositions, not_or]

theorem Extends.exact_iff_inPlace (h : Extends chain txs) (hchain : Valid chain) :
    (∀ tx ∈ transactions chain,
      Exact (unspentIndexes (Bitcoin.named (inputs (transactions chain)) tx.id)
        tx.vout.length) (positions txs tx.id)) ↔ InPlace chain txs := by
  constructor
  · intro hexact front vin back hsplit index hindex hlt hpoint
    have hvin : vin ∈ inputs txs := by rw [hsplit]; simp
    obtain ⟨tx, htx, hid, _⟩ := h.named vin hvin
    have hpositions : positions txs tx.id = (Bitcoin.named front tx.id).map Int.toNat ++
        vin.vout.toNat :: (Bitcoin.named back tx.id).map Int.toNat := by
      rw [positions, hsplit, named_append, List.map_append]
      congr 1
      simp [Bitcoin.named, hid]
    have hplace := (Lib.exact_iff (unspentIndexes_increasing _ _)
      (h.nodup_positions hchain htx) (h.positions_subset hchain htx)).mp (hexact tx htx)
    obtain ⟨hunspent, hfront⟩ := hplace _ _ _ hpositions index.toNat (by omega)
    have hold := (Bitcoin.mem_unspentIndexes.mp hunspent).2
    rw [Int.toNat_of_nonneg hindex] at hold
    rw [← hid, mem_map_outpoint, named_append, List.mem_append] at hpoint
    rcases hpoint with hpoint | hpoint
    · exact hfront (List.mem_map_of_mem hpoint)
    · exact hold hpoint
  · intro hinPlace tx htx
    refine (Lib.exact_iff (unspentIndexes_increasing _ _)
      (h.nodup_positions hchain htx) (h.positions_subset hchain htx)).mpr ?_
    intro before p after hsplit q hq
    obtain ⟨first, rest, hnamed, rfl, hrest⟩ := List.map_eq_append_iff.mp hsplit
    obtain ⟨vout, last, rfl, rfl, _⟩ := List.map_eq_cons_iff.mp hrest
    obtain ⟨front, vin, back, hinputs, rfl, hid, rfl⟩ := named_eq_append hnamed
    have hpoint := hinPlace front vin back hinputs q (by omega) (by omega)
    rw [hid, mem_map_outpoint, named_append, List.mem_append, not_or] at hpoint
    have hvout : vin.vout ∈ Bitcoin.named (inputs txs) tx.id := by
      rw [hnamed]
      simp
    have hlt := (Bitcoin.mem_unspentIndexes.mp
      (h.mem_unspentIndexes hchain htx hvout).2).1
    refine ⟨Bitcoin.mem_unspentIndexes.mpr ⟨by omega, hpoint.2⟩, ?_⟩
    intro hmem
    obtain ⟨other, hother, rfl⟩ := List.mem_map.mp hmem
    have hnonneg : 0 ≤ other := by
      refine (h.mem_unspentIndexes hchain htx ?_).1
      rw [hnamed]
      exact List.mem_append_left _ hother
    rw [Int.toNat_of_nonneg hnonneg] at hpoint
    exact hpoint.1 hother

end Extends

section Update

variable {chain : Chain} {block : Block} {bucket : Bucket}

/-- The bucket is what `Reindex` builds for the chain. -/
def Built (chain : Chain) (bucket : Bucket) : Prop :=
  ∃ built, reindex chain = some built ∧ ∀ id, bucket.get id = built.get id

theorem built_iff : Built chain bucket ↔ (∀ id, bucket.get id = (findUTXO chain).get id) ∧
    ∀ id, bucket.get id ≠ none → Storable id := by
  constructor
  · rintro ⟨built, hbuilt, hget⟩
    have hscan : ∀ id, bucket.get id = (findUTXO chain).get id := fun id =>
      (hget id).trans (reindex_get hbuilt id)
    refine ⟨hscan, fun id hid => ?_⟩
    rw [hscan] at hid
    exact reindex_isSome.mp (by rw [hbuilt]; rfl) id hid
  · rintro ⟨hscan, hstorable⟩
    have hsome : (reindex chain).isSome :=
      reindex_isSome.mpr fun id hid => hstorable id (by rwa [hscan])
    obtain ⟨built, hbuilt⟩ := Option.isSome_iff_exists.mp hsome
    exact ⟨built, hbuilt, fun id => (hscan id).trans (reindex_get hbuilt id).symm⟩

def UpdatesRight (chain : Chain) (block : Block) (bucket : Bucket) : Prop :=
  ∃ bucket', UTXOSet.update bucket block = some bucket' ∧ Built (block :: chain) bucket'

theorem enough_of_extends (hchain : Valid chain) (h : Extends chain block.transactions)
    (hbucket : Built chain bucket) : UTXOSet.Enough bucket (inputs block.transactions) := by
  obtain ⟨hscan, hstorable⟩ := built_iff.mp hbucket
  refine ⟨fun id => ?_, hstorable⟩
  by_cases hid : id ∈ (transactions chain).map (·.id)
  · obtain ⟨tx, htx, rfl⟩ := List.mem_map.mp hid
    rw [hscan, findUTXO_get hchain htx, UTXOSet.getD_stored, unspent, List.length_map]
    have hlength := (Lib.perm_append_filter
      (Lib.nodup_of_increasing (unspentIndexes_increasing _ _))
      (h.nodup_positions hchain htx) (h.positions_subset hchain htx)).length_eq
    rw [List.length_append, positions, List.length_map] at hlength
    omega
  · rw [named_of_notMem h.named hid]
    exact Nat.zero_le _

section Updated

variable (hbucket : ∀ id, bucket.get id = (findUTXO chain).get id)

include hbucket

/-- An old transaction keeps what is left at the positions, and should keep what is not
named. -/
theorem update_old (hchain : Valid chain) (h : Extends chain block.transactions)
    {bucket' : Bucket} (hupdate : UTXOSet.update bucket block = some bucket')
    {tx : Transaction} (htx : tx ∈ transactions chain) : bucket'.get tx.id =
      stored ((eraseAll (unspentIndexes (named (inputs (transactions chain)) tx.id)
        tx.vout.length) (positions block.transactions tx.id)).map (outputOf tx.vout)) := by
  have hfresh : tx.id ∉ block.transactions.map (·.id) := by
    intro hmem
    obtain ⟨new, hnew, hid⟩ := List.mem_map.mp hmem
    exact h.fresh new hnew (List.mem_map.mpr ⟨tx, htx, hid.symm⟩)
  rw [UTXOSet.update_get hupdate hfresh, hbucket, findUTXO_get hchain htx,
    UTXOSet.foldl_follow fun vout hvout => (h.mem_unspentIndexes hchain htx hvout).1,
    unspent, Lib.eraseAll_map]
  rfl

end Updated

theorem findUTXO_old (hvalid : Valid (block :: chain)) {tx : Transaction}
    (htx : tx ∈ transactions chain) : (findUTXO (block :: chain)).get tx.id =
      stored (((unspentIndexes (named (inputs (transactions chain)) tx.id)
        tx.vout.length).filter (· ∉ positions block.transactions tx.id)).map
          (outputOf tx.vout)) := by
  rw [findUTXO_get hvalid (List.mem_append_right _ htx), transactions_cons,
    inputs_append, unspent, hvalid.2.unspentIndexes_append hvalid.1 htx]

theorem unspent_nil (outs : List TXOutput) : unspent [] outs = outs := by
  refine List.ext_getElem (by simp [unspent, unspentIndexes]) ?_
  intro i hi hi'
  simp [unspent, unspentIndexes, outputOf, hi']

theorem findUTXO_new (hvalid : Valid (block :: chain)) {tx : Transaction}
    (htx : tx ∈ block.transactions) :
    (findUTXO (block :: chain)).get tx.id = stored tx.vout := by
  have hnone : named (inputs (transactions (block :: chain))) tx.id = [] := by
    rw [transactions_cons, inputs_append, named_append, hvalid.2.named_new htx,
      hvalid.2.named_old hvalid.1 htx]
    rfl
  rw [findUTXO_get hvalid (List.mem_append_left _ htx), hnone, unspent_nil]

/-- What is in the bucket after an update was in it before, or is of the block. -/
theorem update_keys {bucket' : Bucket} (hupdate : UTXOSet.update bucket block = some bucket')
    {id : Bytes} (hid : bucket'.get id ≠ none) :
    bucket.get id ≠ none ∨ id ∈ block.transactions.map (·.id) := by
  by_cases hnew : id ∈ block.transactions.map (·.id)
  · exact .inr hnew
  · refine .inl fun hnone => hid ?_
    rw [UTXOSet.update_get hupdate hnew, hnone]
    exact List.foldl_fixed' (fun vout => rfl) _

theorem updates_of_inPlace (hvalid : Valid (block :: chain)) (hbucket : Built chain bucket)
    (hinPlace : InPlace chain block.transactions)
    (hnew : ∀ tx ∈ block.transactions, Storable tx.id ∧ tx.vout ≠ []) :
    UpdatesRight chain block bucket := by
  obtain ⟨hchain, hblock⟩ := hvalid
  obtain ⟨hscan, hstorable⟩ := built_iff.mp hbucket
  obtain ⟨bucket', hupdate⟩ := UTXOSet.update_isSome
    (enough_of_extends hchain hblock hbucket) (fun tx htx => hblock.named_new htx)
    fun tx htx => (hnew tx htx).1
  refine ⟨bucket', hupdate, built_iff.mpr ⟨fun id => ?_, fun id hid => ?_⟩⟩
  · by_cases hnewid : id ∈ block.transactions.map (·.id)
    · obtain ⟨tx, htx, rfl⟩ := List.mem_map.mp hnewid
      rw [UTXOSet.update_get_new hupdate htx hblock.distinct (hblock.named_new htx),
        findUTXO_new ⟨hchain, hblock⟩ htx, stored, if_neg (hnew tx htx).2]
    · by_cases hold : id ∈ (transactions chain).map (·.id)
      · obtain ⟨tx, htx, rfl⟩ := List.mem_map.mp hold
        have hexact := (hblock.exact_iff_inPlace hchain).mpr hinPlace tx htx
        rw [update_old hscan hchain hblock hupdate htx, findUTXO_old ⟨hchain, hblock⟩ htx,
          Lib.eraseAll_of_exact (unspentIndexes_increasing _ _) hexact]
      · rw [UTXOSet.update_get hupdate hnewid, named_of_notMem hblock.named hold,
          List.foldl_nil, hscan, findUTXO_get_of_notMem hold, findUTXO_get_of_notMem]
        rw [transactions_cons, List.map_append, List.mem_append, not_or]
        exact ⟨hnewid, hold⟩
  · rcases update_keys hupdate hid with hold | hnewid
    · exact hstorable id hold
    · obtain ⟨tx, htx, rfl⟩ := List.mem_map.mp hnewid
      exact (hnew tx htx).1

/-- Where the outputs of the named transactions differ from each other, a wrong place
shows. -/
theorem inPlace_of_updates (hvalid : Valid (block :: chain)) (hbucket : Built chain bucket)
    (hdiffer : ∀ vin ∈ inputs block.transactions, ∀ tx ∈ transactions chain,
      tx.id = vin.txid → tx.vout.Nodup)
    (h : UpdatesRight chain block bucket) :
    InPlace chain block.transactions ∧
      ∀ tx ∈ block.transactions, Storable tx.id ∧ tx.vout ≠ [] := by
  obtain ⟨hchain, hblock⟩ := hvalid
  obtain ⟨hscan, _⟩ := built_iff.mp hbucket
  obtain ⟨bucket', hupdate, hbuilt⟩ := h
  obtain ⟨hget, _⟩ := built_iff.mp hbuilt
  refine ⟨?_, fun tx htx => ⟨UTXOSet.update_storable hupdate tx htx, fun hnone => ?_⟩⟩
  · refine (hblock.exact_iff_inPlace hchain).mp ?_
    intro tx htx
    by_cases hnamed : positions block.transactions tx.id = []
    · rw [hnamed]
      trivial
    · have hnodup : tx.vout.Nodup := by
        obtain ⟨p, hp⟩ := List.exists_mem_of_ne_nil _ hnamed
        obtain ⟨vout, hvout, _⟩ := List.mem_map.mp hp
        obtain ⟨vin, hvin, hid, _⟩ := mem_named.mp hvout
        exact hdiffer vin hvin tx htx hid.symm
      have hsame := hget tx.id
      rw [update_old hscan hchain hblock hupdate htx, findUTXO_old ⟨hchain, hblock⟩ htx,
        stored_inj] at hsame
      refine (Lib.eraseAll_eq_filter_iff (unspentIndexes_increasing _ _)
        (hblock.nodup_positions hchain htx) (hblock.positions_subset hchain htx)).mp ?_
      refine Lib.map_inj_on ?_ hsame
      intro i hi j hj hout
      have hi := (mem_unspentIndexes.mp ((Lib.eraseAll_sublist _ _).subset hi)).1
      have hj := (mem_unspentIndexes.mp (List.mem_filter.mp hj).1).1
      rw [outputOf, outputOf, List.getD_eq_getElem _ _ hi, List.getD_eq_getElem _ _ hj] at hout
      exact (hnodup.getElem_inj_iff).mp hout
  · have hsame := hget tx.id
    rw [UTXOSet.update_get_new hupdate htx hblock.distinct (hblock.named_new htx),
      findUTXO_new ⟨hchain, hblock⟩ htx, hnone] at hsame
    cases hsame

/-- The updated bucket is the rebuilt one when every input is in place and every
transaction of the block has an ID that can be stored, and an output; and only then, if
equal outputs do not hide a wrong place. -/
theorem update_eq_reindex (hvalid : Valid (block :: chain)) (hbucket : Built chain bucket) :
    (InPlace chain block.transactions ∧
        (∀ tx ∈ block.transactions, Storable tx.id ∧ tx.vout ≠ []) →
      UpdatesRight chain block bucket) ∧
    ((∀ vin ∈ inputs block.transactions, ∀ tx ∈ transactions chain,
        tx.id = vin.txid → tx.vout.Nodup) →
      UpdatesRight chain block bucket →
        InPlace chain block.transactions ∧
          ∀ tx ∈ block.transactions, Storable tx.id ∧ tx.vout ≠ []) :=
  ⟨fun ⟨hinPlace, hnew⟩ => updates_of_inPlace hvalid hbucket hinPlace hnew,
    fun hdiffer h => inPlace_of_updates hvalid hbucket hdiffer h⟩

end Update

section Example

def exampleBlock (txs : List Transaction) : Block :=
  ⟨0, txs, [], [], 0, 0⟩

def coinbaseBlock : Block :=
  exampleBlock [⟨[1], [⟨[], -1, [], []⟩], [⟨3, [7]⟩, ⟨7, [8]⟩]⟩]

def spendAt (id : Bytes) (indexes : List Int) : Transaction :=
  ⟨id, indexes.map fun index => ⟨[1], index, [], []⟩, [⟨1, [9]⟩]⟩

theorem valid_coinbase : Valid [coinbaseBlock] :=
  ⟨trivial, ⟨by decide, by decide, by simp [coinbaseBlock, exampleBlock, inputs,
    Transaction.spends, Transaction.isCoinbase], by decide, by decide⟩⟩

theorem named_coinbase {chain : Chain} (hmem : coinbaseBlock ∈ chain) {index : Int}
    (hindex : index = 0 ∨ index = 1) : ∃ tx ∈ transactions chain,
      tx.id = [1] ∧ ∃ out, outputAt tx.vout index = some out := by
  refine ⟨_, List.mem_flatMap.mpr ⟨coinbaseBlock, hmem, List.mem_singleton_self _⟩, rfl, ?_⟩
  rcases hindex with rfl | rfl
  · exact ⟨⟨3, [7]⟩, rfl⟩
  · exact ⟨⟨7, [8]⟩, rfl⟩

def spentFirst : Block :=
  exampleBlock [spendAt [2] [0]]

theorem valid_spentFirst : Valid [spentFirst, coinbaseBlock] := by
  refine ⟨valid_coinbase, by decide, by decide, ?_, by decide, by decide⟩
  intro vin hvin
  obtain rfl := List.mem_singleton.mp hvin
  exact named_coinbase (by simp) (.inl rfl)

/-- What `Reindex` builds for a chain that it does not fail on. -/
def rebuilt (chain : Chain) : Bucket :=
  (reindex chain).getD ∅

theorem reindex_rebuilt {chain : Chain} (h : (reindex chain).isSome) :
    reindex chain = some (rebuilt chain) := by
  obtain ⟨built, hbuilt⟩ := Option.isSome_iff_exists.mp h
  rw [rebuilt, hbuilt, Option.getD_some]

theorem built_rebuilt {chain : Chain} (h : (reindex chain).isSome) :
    Built chain (rebuilt chain) :=
  ⟨rebuilt chain, reindex_rebuilt h, fun _ => rfl⟩

/-- Both outputs are spent in one block, the second one first. -/
theorem update_eq_reindex_both :
    UpdatesRight [coinbaseBlock] (exampleBlock [spendAt [2] [1, 0]])
      (rebuilt [coinbaseBlock]) := by
  have hvalid : Valid (exampleBlock [spendAt [2] [1, 0]] :: [coinbaseBlock]) := by
    refine ⟨valid_coinbase, by decide, by decide, ?_, by decide, by decide⟩
    intro vin hvin
    have hvin : vin = ⟨[1], 1, [], []⟩ ∨ vin = ⟨[1], 0, [], []⟩ := by
      simpa [exampleBlock, spendAt, inputs, Transaction.spends, Transaction.isCoinbase]
        using hvin
    rcases hvin with rfl | rfl
    · exact named_coinbase (List.mem_singleton_self _) (.inr rfl)
    · exact named_coinbase (List.mem_singleton_self _) (.inl rfl)
  refine (update_eq_reindex hvalid (built_rebuilt (by decide +kernel))).1 ⟨?_, by decide⟩
  intro front vin back hsplit index hindex hlt
  have hsplit : [⟨[1], 1, [], []⟩, ⟨[1], 0, [], []⟩] = front ++ vin :: back := hsplit
  rcases front with _ | ⟨first, _ | ⟨second, front⟩⟩
  · intro hmem
    cases hmem
  · obtain ⟨rfl, hrest⟩ := List.cons.inj hsplit
    obtain ⟨rfl, _⟩ := List.cons.inj hrest
    exact absurd hlt (by simpa using hindex)
  · simp at hsplit

/-- The outputs are spent in two blocks, the first one first. -/
theorem update_ne_reindex : ¬ ∀ (chain : Chain) (block : Block) (bucket : Bucket),
    Valid (block :: chain) → Built chain bucket → UpdatesRight chain block bucket := by
  intro h
  have hsecond : Valid [exampleBlock [spendAt [3] [1]], spentFirst, coinbaseBlock] := by
    refine ⟨valid_spentFirst, by decide, by decide, ?_, by decide, by decide⟩
    intro vin hvin
    obtain rfl := List.mem_singleton.mp hvin
    exact named_coinbase (by simp) (.inr rfl)
  obtain ⟨bucket', hupdate, hbuilt⟩ := h _ _ _ hsecond (built_rebuilt (by decide +kernel))
  have hleft : (UTXOSet.update (rebuilt [spentFirst, coinbaseBlock])
      (exampleBlock [spendAt [3] [1]])).map (·.get [1]) = some (some [⟨7, [8]⟩]) := by
    decide +kernel
  have hright : (findUTXO [exampleBlock [spendAt [3] [1]], spentFirst,
      coinbaseBlock]).get [1] = none := by
    decide +kernel
  rw [hupdate, Option.map_some, (built_iff.mp hbuilt).1, hright] at hleft
  cases hleft

end Example

end BlockchainTutorial.Bitcoin
