import BlockchainTutorial.Bitcoin.Rebuild

namespace BlockchainTutorial.Bitcoin

/-! The order in which `FindUTXO` reads a chain: from the tip back, and forward in each
block. -/

/-- The transactions as they were made. -/
def history (chain : Chain) : List Transaction :=
  chain.reverse.flatMap (·.transactions)

/-- Inputs name outputs of earlier transactions, no two the same one. -/
structure Ordered (chain : Chain) : Prop where
  distinct : ((transactions chain).map (·.id)).Nodup
  named : ∀ front tx back, history chain = front ++ tx :: back → ∀ vin ∈ tx.spends,
    ∃ prev ∈ front, prev.id = vin.txid ∧ ∃ out, outputAt prev.vout vin.vout = some out
  once : ((inputs (transactions chain)).map outpoint).Nodup

theorem forall_split_iff {α : Type*} {l : List α} {p : List α → α → Prop} :
    (∀ front a back, l = front ++ a :: back → p front a) ↔
      ∀ entry ∈ l.zipIdx, p (l.take entry.2) entry.1 := by
  constructor
  · rintro h ⟨a, i⟩ hentry
    have hget : l[i]? = some a := List.mem_zipIdx_iff_getElem?.mp hentry
    obtain ⟨hi, rfl⟩ := List.getElem?_eq_some_iff.mp hget
    refine h (l.take i) l[i] (l.drop (i + 1)) ?_
    rw [← List.drop_eq_getElem_cons hi, List.take_append_drop]
  · rintro h front a back rfl
    have hentry : (a, front.length) ∈ (front ++ a :: back).zipIdx :=
      List.mem_zipIdx_iff_getElem?.mpr (by simp)
    simpa using h _ hentry

instance {chain : Chain} : Decidable (Ordered chain) :=
  decidable_of_iff
    (((transactions chain).map (·.id)).Nodup ∧
      (∀ entry ∈ (history chain).zipIdx, ∀ vin ∈ entry.1.spends,
        ∃ prev ∈ (history chain).take entry.2, prev.id = vin.txid ∧
          (outputAt prev.vout vin.vout).isSome) ∧
      ((inputs (transactions chain)).map outpoint).Nodup)
    ⟨fun ⟨hdistinct, hnamed, honce⟩ => ⟨hdistinct, forall_split_iff.mpr (by
        simpa only [Option.isSome_iff_exists] using hnamed), honce⟩,
      fun ⟨hdistinct, hnamed, honce⟩ => ⟨hdistinct, by
        simpa only [Option.isSome_iff_exists] using forall_split_iff.mp hnamed, honce⟩⟩

/-- What `FindUTXO` returns are the outputs that no input names. -/
def ScansRight (chain : Chain) : Prop :=
  (∀ tx ∈ transactions chain, (findUTXO chain).get tx.id =
    stored (unspent (named (inputs (transactions chain)) tx.id) tx.vout)) ∧
  ∀ id, id ∉ (transactions chain).map (·.id) → (findUTXO chain).get id = none

/-- No block has an input that names a transaction of the same block. -/
def Apart (chain : Chain) : Prop :=
  ∀ block ∈ chain, ∀ vin ∈ inputs block.transactions,
    vin.txid ∉ block.transactions.map (·.id)

instance {chain : Chain} : Decidable (Apart chain) :=
  inferInstanceAs (Decidable (∀ block ∈ chain, ∀ vin ∈ inputs block.transactions,
    vin.txid ∉ block.transactions.map (·.id)))

theorem history_cons (block : Block) (chain : Chain) :
    history (block :: chain) = history chain ++ block.transactions := by
  simp [history]

theorem history_perm (chain : Chain) : (history chain).Perm (transactions chain) :=
  chain.reverse_perm.flatMap_right _

theorem transactions_append (newer older : Chain) :
    transactions (newer ++ older) = transactions newer ++ transactions older :=
  List.flatMap_append

theorem history_append (newer older : Chain) :
    history (newer ++ older) = history older ++ history newer := by
  simp [history]

section Ordered

variable {block : Block} {chain : Chain}

theorem mem_inputs {vin : TXInput} {txs : List Transaction} :
    vin ∈ inputs txs ↔ ∃ tx ∈ txs, vin ∈ tx.spends :=
  List.mem_flatMap

theorem Ordered.nodup_history (h : Ordered chain) : ((history chain).map (·.id)).Nodup :=
  ((history_perm chain).map _).nodup_iff.mpr h.distinct

theorem Ordered.tail (h : Ordered (block :: chain)) : Ordered chain where
  distinct := by
    have hdistinct := h.distinct
    rw [transactions_cons, List.map_append] at hdistinct
    exact hdistinct.of_append_right
  named := by
    intro front tx back hsplit
    refine h.named front tx (back ++ block.transactions) ?_
    rw [history_cons, hsplit, List.append_assoc]
    rfl
  once := by
    have honce := h.once
    rw [transactions_cons, inputs_append, List.map_append] at honce
    exact honce.of_append_right

/-- A block on a chain names outputs of the chain, when it names none of its own. -/
theorem Ordered.extends (h : Ordered (block :: chain))
    (hapart : ∀ vin ∈ inputs block.transactions,
      vin.txid ∉ block.transactions.map (·.id)) :
    Extends chain block.transactions := by
  have hdistinct := h.distinct
  have honce := h.once
  rw [transactions_cons, List.map_append, List.nodup_append] at hdistinct
  rw [transactions_cons, inputs_append, List.map_append, List.nodup_append] at honce
  refine ⟨hdistinct.1, ?_, ?_, honce.1, ?_⟩
  · intro tx htx hold
    exact hdistinct.2.2 tx.id (List.mem_map_of_mem htx) tx.id hold rfl
  · intro vin hvin
    obtain ⟨tx, htx, hspends⟩ := mem_inputs.mp hvin
    obtain ⟨before, after, hblock⟩ := List.append_of_mem htx
    obtain ⟨prev, hprev, hid, hout⟩ := h.named (history chain ++ before) tx after
      (by rw [history_cons, hblock, List.append_assoc]) vin hspends
    rcases List.mem_append.mp hprev with hold | hown
    · exact ⟨prev, (history_perm chain).mem_iff.mp hold, hid, hout⟩
    · refine absurd (List.mem_map.mpr ⟨prev, ?_, hid⟩) (hapart vin hvin)
      rw [hblock]
      exact List.mem_append_left _ hown
  · intro vin hvin hold
    exact honce.2.2 _ (List.mem_map_of_mem hvin) _ hold rfl

theorem Ordered.valid (h : Ordered chain) (hapart : Apart chain) : Valid chain := by
  induction chain with
  | nil => trivial
  | cons block chain ih =>
      exact ⟨ih h.tail fun other hother => hapart other (List.mem_cons_of_mem _ hother),
        h.extends (hapart block List.mem_cons_self)⟩

/-- In its block an input comes after the transaction that it names. -/
theorem Ordered.mem_inputs_after (h : Ordered chain) (hblock : block ∈ chain)
    {before after : List Transaction} {tx : Transaction}
    (hsplit : block.transactions = before ++ tx :: after) {vin : TXInput}
    (hvin : vin ∈ inputs block.transactions) (hid : vin.txid = tx.id) :
    vin ∈ inputs after := by
  obtain ⟨newer, older, rfl⟩ := List.append_of_mem hblock
  have hhistory : history (newer ++ block :: older) =
      history older ++ (before ++ tx :: (after ++ history newer)) := by
    rw [history_append, history_cons, hsplit]
    simp
  have hnodup := h.nodup_history
  -- no transaction up to `tx` can name it
  have hearlier : ∀ front other back, before ++ [tx] = front ++ other :: back →
      vin ∉ other.spends := by
    intro front other back hfront hspends
    have hother : history (newer ++ block :: older) =
        (history older ++ front) ++ other :: (back ++ (after ++ history newer)) := by
      have hjoin : before ++ tx :: (after ++ history newer) =
          (before ++ [tx]) ++ (after ++ history newer) := by simp
      rw [hhistory, hjoin, hfront]
      simp
    obtain ⟨prev, hprev, hprevid, _⟩ := h.named _ other _ hother vin hspends
    have htx : tx ∈ other :: back := by
      have hlast := congrArg List.getLast? hfront
      rw [List.getLast?_append, List.getLast?_append] at hlast
      refine List.mem_of_getLast? (a := tx) ?_
      simpa using hlast.symm
    rw [hother, List.map_append, List.nodup_append] at hnodup
    refine hnodup.2.2 prev.id (List.mem_map_of_mem hprev) tx.id ?_ (hprevid.trans hid)
    rw [← List.cons_append]
    exact List.mem_map_of_mem (List.mem_append_left _ htx)
  rw [hsplit, inputs_append, List.mem_append, inputs_cons, List.mem_append] at hvin
  rcases hvin with hbefore | hown | hafter
  · obtain ⟨other, hother, hspends⟩ := mem_inputs.mp hbefore
    obtain ⟨front, back, rfl⟩ := List.append_of_mem hother
    exact absurd hspends (hearlier front other (back ++ [tx]) (by simp))
  · exact absurd hown (hearlier before tx [] rfl)
  · exact hafter

theorem length_unspentIndexes_lt {spent more : List Int} {n i : Nat} (hi : i < n)
    (hspent : (i : Int) ∉ spent) (hmore : (i : Int) ∈ more) :
    (unspentIndexes (spent ++ more) n).length < (unspentIndexes spent n).length := by
  have hfilter : unspentIndexes (spent ++ more) n =
      (unspentIndexes spent n).filter fun j : Nat => (j : Int) ∉ more := by
    rw [unspentIndexes, unspentIndexes, List.filter_filter]
    refine List.filter_congr fun j _ => ?_
    simp [not_or, Bool.and_comm]
  rw [hfilter]
  exact List.length_filter_lt_length_iff_exists.mpr
    ⟨i, mem_unspentIndexes.mpr ⟨hi, hspent⟩, by simpa using hmore⟩

theorem Ordered.named_output (h : Ordered chain) {tx : Transaction}
    (htx : tx ∈ transactions chain) {vin : TXInput} (hvin : vin ∈ inputs (transactions chain))
    (hid : vin.txid = tx.id) : ∃ out, outputAt tx.vout vin.vout = some out := by
  obtain ⟨other, hother, hspends⟩ := mem_inputs.mp hvin
  obtain ⟨front, back, hsplit⟩ :=
    List.append_of_mem ((history_perm chain).mem_iff.mpr hother)
  obtain ⟨prev, hprev, hprevid, hout⟩ := h.named front other back hsplit vin hspends
  have hmem : prev ∈ transactions chain := by
    rw [← (history_perm chain).mem_iff, hsplit]
    exact List.mem_append_left _ hprev
  have hsame : prev = tx :=
    List.inj_on_of_nodup_map h.distinct hmem htx (hprevid.trans hid)
  rwa [hsame] at hout

/-- An output that is spent in its own block comes back as an unspent one. -/
theorem Ordered.apart_of_scansRight (h : Ordered chain) (hright : ScansRight chain) :
    Apart chain := by
  intro block hblock vin hvin hmem
  obtain ⟨tx, htx, hid⟩ := List.mem_map.mp hmem
  obtain ⟨before, after, hsplit⟩ := List.append_of_mem htx
  have hafter := h.mem_inputs_after hblock hsplit hvin hid.symm
  obtain ⟨newer, older, rfl⟩ := List.append_of_mem hblock
  have hall : transactions (newer ++ block :: older) =
      (transactions newer ++ before) ++ tx :: (after ++ transactions older) := by
    rw [transactions_append, transactions_cons, hsplit]
    simp
  generalize hfront : transactions newer ++ before = front at hall
  generalize hback : after ++ transactions older = back at hall
  have hlater : vin ∈ tx.spends ++ inputs back := by
    rw [← hback, inputs_append]
    exact List.mem_append_right _ (List.mem_append_left _ hafter)
  have hinputs : inputs (transactions (newer ++ block :: older)) =
      inputs front ++ (tx.spends ++ inputs back) := by
    rw [hall, inputs_append, inputs_cons]
  have hchain : tx ∈ transactions (newer ++ block :: older) := by
    rw [hall]
    exact List.mem_append_right _ List.mem_cons_self
  obtain ⟨out, hout⟩ := h.named_output hchain
    (by rw [hinputs]; exact List.mem_append_right _ hlater) hid.symm
  obtain ⟨hpos, hlt, _⟩ := outputAt_eq_some hout
  have hindex : ((vin.vout.toNat : Nat) : Int) = vin.vout := Int.toNat_of_nonneg hpos
  -- the scan has read the inputs in `front` when it comes to `tx`
  have hfound : stored (unspent (Bitcoin.named (inputs front) tx.id) tx.vout) =
      stored (unspent (Bitcoin.named (inputs front) tx.id ++
        Bitcoin.named (tx.spends ++ inputs back) tx.id) tx.vout) := by
    have hdistinct := h.distinct
    rw [hall] at hdistinct
    rw [← named_append, ← hinputs, ← hright.1 tx hchain, findUTXO_eq, hall,
      Scan.foldl_get hdistinct]
  have hlength := congrArg List.length (stored_inj.mp hfound)
  rw [unspent, unspent, List.length_map, List.length_map] at hlength
  have hunread : ((vin.vout.toNat : Nat) : Int) ∉ Bitcoin.named (inputs front) tx.id := by
    rw [hindex]
    intro hread
    obtain ⟨other, hother, hotherid, hvout⟩ := mem_named.mp hread
    have honce := h.once
    rw [hinputs, List.map_append, List.nodup_append] at honce
    refine honce.2.2 _ (List.mem_map_of_mem hother) _ (List.mem_map_of_mem hlater) ?_
    rw [outpoint, outpoint, hotherid, hvout, hid]
  refine absurd hlength (Nat.ne_of_gt (length_unspentIndexes_lt hlt hunread ?_))
  rw [hindex]
  exact mem_named.mpr ⟨vin, hlater, hid.symm, rfl⟩

/-- The backward scan gives the unspent outputs exactly when no block spends an output of
its own. -/
theorem scansRight_iff (h : Ordered chain) : ScansRight chain ↔ Apart chain := by
  refine ⟨h.apart_of_scansRight, fun hapart => ⟨?_, ?_⟩⟩
  · intro tx htx
    exact findUTXO_get (h.valid hapart) htx
  · intro id hid
    exact findUTXO_get_of_notMem hid

end Ordered

section Example

/-- The two outputs of the first block are spent in another one. -/
theorem scansRight_two : ScansRight [exampleBlock [spendAt [2] [1, 0]], coinbaseBlock] :=
  (scansRight_iff (by decide +kernel)).mpr (by decide +kernel)

/-- The second transaction of the block spends the output of the first one. -/
def ownBlock : Block :=
  exampleBlock [spendAt [2] [1], ⟨[3], [⟨[2], 0, [], []⟩], [⟨1, [9]⟩]⟩]

theorem scan_misses : ¬ ∀ chain : Chain, Ordered chain → ScansRight chain := by
  intro h
  have hget := (h [ownBlock, coinbaseBlock] (by decide +kernel)).1 (spendAt [2] [1])
    (by decide +kernel)
  revert hget
  decide +kernel

end Example

end BlockchainTutorial.Bitcoin
