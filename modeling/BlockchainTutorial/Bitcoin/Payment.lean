import BlockchainTutorial.Bitcoin.Selection
import BlockchainTutorial.Bitcoin.Signing
import BlockchainTutorial.Bitcoin.Supply

namespace BlockchainTutorial.Bitcoin

/-! What a payment is made of. `FindSpendableOutputs` returns positions in the lists of the
bucket, where the spent outputs are missing. -/

def outputsAt (chain : Chain) (id : Bytes) : List TXOutput :=
  ((findTransaction chain id).map (·.vout)).getD []

/-- The indexes of the outputs of a transaction that no input names. -/
def indexesAt (chain : Chain) (id : Bytes) : List Nat :=
  unspentIndexes (named (inputs (transactions chain)) id) (outputsAt chain id).length

/-- The unspent outputs of a key by their indexes, in the order of the transaction IDs. -/
def walletOutputs (chain : Chain) (pubKeyHash : Bytes) : List (Bytes × Nat) :=
  (cursor (findUTXO chain)).flatMap fun entry =>
    ((indexesAt chain entry.1).filter fun index =>
      (outputOf (outputsAt chain entry.1) index).isLockedWithKey pubKeyHash).map (entry.1, ·)

/-- The total of the unspent outputs of a key. -/
def walletTotal (chain : Chain) (pubKeyHash : Bytes) : Int :=
  ((transactions chain).map fun tx =>
    value ((unspent (named (inputs (transactions chain)) tx.id) tx.vout).filter
      (·.isLockedWithKey pubKeyHash))).sum

/-- The first ones of them that reach an amount. -/
def needed (chain : Chain) (pubKeyHash : Bytes) (amount : Int) : List (Bytes × Nat) :=
  reach (fun place => (outputOn (outputsAt chain) place).value) amount 0
    (walletOutputs chain pubKeyHash)

def neededTotal (chain : Chain) (pubKeyHash : Bytes) (amount : Int) : Int :=
  ((needed chain pubKeyHash amount).map fun place =>
    (outputOn (outputsAt chain) place).value).sum

/-- No output before one that is needed has been spent. -/
def FrontUnspent (chain : Chain) (pubKeyHash : Bytes) (amount : Int) : Prop :=
  ∀ place ∈ needed chain pubKeyHash amount, ∀ index : Nat, index < place.2 →
    (index : Int) ∉ named (inputs (transactions chain)) place.1

instance (chain : Chain) (pubKeyHash : Bytes) (amount : Int) :
    Decidable (FrontUnspent chain pubKeyHash amount) :=
  inferInstanceAs (Decidable (∀ place ∈ needed chain pubKeyHash amount,
    ∀ index : Nat, index < place.2 →
      (index : Int) ∉ named (inputs (transactions chain)) place.1))

/-- An unspent output of the key in the original transaction. -/
def NamesUnspent (chain : Chain) (pubKeyHash : Bytes) (point : Bytes × Int) : Prop :=
  ∃ prev ∈ transactions chain, prev.id = point.1 ∧ ∃ out,
    outputAt prev.vout point.2 = some out ∧ out.isLockedWithKey pubKeyHash = true ∧
      point.2 ∉ named (inputs (transactions chain)) point.1

/-- The transaction pays with unspent outputs of the key. -/
structure Pays (chain : Chain) (pubKeyHash : Bytes) (tx : Transaction) : Prop where
  once : (tx.vin.map outpoint).Nodup
  unspent : ∀ vin ∈ tx.vin, NamesUnspent chain pubKeyHash (outpoint vin)
  balanced : (tx.vin.map (namedValue chain)).sum = value tx.vout

/-! The lists of the bucket. -/

section Rebuilt

variable {chain : Chain}

theorem Valid.outputsAt_eq (h : Valid chain) {tx : Transaction}
    (htx : tx ∈ transactions chain) : outputsAt chain tx.id = tx.vout := by
  rw [outputsAt, h.findTransaction htx]
  rfl

theorem indexesAt_increasing (chain : Chain) (id : Bytes) :
    (indexesAt chain id).Pairwise (· < ·) :=
  unspentIndexes_increasing _ _

theorem Valid.findUTXO_get (h : Valid chain) {tx : Transaction}
    (htx : tx ∈ transactions chain) : (findUTXO chain).get tx.id =
      stored ((indexesAt chain tx.id).map (outputOf (outputsAt chain tx.id))) := by
  rw [indexesAt, h.outputsAt_eq htx]
  exact Bitcoin.findUTXO_get h htx

/-- An entry has the outputs at the indexes that are left. -/
theorem Valid.entry_eq (h : Valid chain) {id : Bytes} {outs : List TXOutput}
    (hget : (findUTXO chain).get id = some outs) :
    (∃ tx ∈ transactions chain, tx.id = id) ∧
      outs = (indexesAt chain id).map (outputOf (outputsAt chain id)) := by
  by_cases hid : id ∈ (transactions chain).map (·.id)
  · obtain ⟨tx, htx, rfl⟩ := List.mem_map.mp hid
    refine ⟨⟨tx, htx, rfl⟩, ?_⟩
    rw [h.findUTXO_get htx, stored] at hget
    split at hget
    · cases hget
    · exact (Option.some.inj hget).symm
  · rw [findUTXO_get_of_notMem hid] at hget
    cases hget

/-- The output that a position of the bucket stands for. -/
def original (chain : Chain) (place : Bytes × Nat) : Bytes × Nat :=
  (place.1, (indexesAt chain place.1).getD place.2 0)

theorem outputOf_map (indexes : List Nat) (outs : List TXOutput) {p : Nat}
    (hp : p < indexes.length) :
    outputOf (indexes.map (outputOf outs)) p = outputOf outs (indexes.getD p 0) := by
  rw [outputOf, List.getD_eq_getElem _ _ (by rwa [List.length_map]), List.getElem_map,
    List.getD_eq_getElem _ _ hp]

theorem mem_lockedFrom {pubKeyHash : Bytes} {all : List TXOutput} {p : Nat} :
    p ∈ lockedFrom pubKeyHash all 0 all.length ↔
      p < all.length ∧ (outputOf all p).isLockedWithKey pubKeyHash = true := by
  simp [lockedFrom]

theorem map_getD (l : List Nat) : (List.range' 0 l.length).map (l.getD · 0) = l := by
  refine List.ext_getElem ?_ ?_
  · rw [List.length_map, List.length_range']
  · intro p _ hp
    rw [List.getElem_map, List.getElem_range', Nat.zero_add, Nat.one_mul,
      List.getD_eq_getElem _ _ hp]

theorem lockedFrom_map (pubKeyHash : Bytes) (indexes : List Nat) (outs : List TXOutput) :
    (lockedFrom pubKeyHash (indexes.map (outputOf outs)) 0 indexes.length).map
        (indexes.getD · 0) =
      indexes.filter fun index => (outputOf outs index).isLockedWithKey pubKeyHash := by
  conv_rhs => rw [← map_getD indexes, List.filter_map]
  rw [lockedFrom]
  congr 1
  refine List.filter_congr fun p hp => ?_
  rw [List.mem_range'_1, Nat.zero_add] at hp
  rw [outputOf_map indexes outs hp.2]
  rfl

theorem Valid.walletOutputs_eq (h : Valid chain) (pubKeyHash : Bytes) :
    walletOutputs chain pubKeyHash =
      (places pubKeyHash (cursor (findUTXO chain))).map (original chain) := by
  unfold walletOutputs places
  rw [List.map_flatMap]
  refine List.flatMap_congr fun entry hentry => ?_
  have houts := (h.entry_eq (mem_cursor.mp hentry)).2
  rw [← lockedFrom_map, List.map_map, List.map_map, houts, List.length_map]
  rfl

end Rebuilt

/-! The places that are found. -/

theorem mem_places {pubKeyHash : Bytes} {bucket : Bucket} {place : Bytes × Nat} :
    place ∈ places pubKeyHash (cursor bucket) ↔ ∃ outs, bucket.get place.1 = some outs ∧
      place.2 < outs.length ∧ (outputOf outs place.2).isLockedWithKey pubKeyHash = true := by
  unfold places
  rw [List.mem_flatMap]
  constructor
  · rintro ⟨entry, hentry, hplace⟩
    obtain ⟨p, hp, rfl⟩ := List.mem_map.mp hplace
    exact ⟨entry.2, mem_cursor.mp hentry, mem_lockedFrom.mp hp⟩
  · rintro ⟨outs, hget, hp⟩
    exact ⟨(place.1, outs), mem_cursor.mpr hget,
      List.mem_map.mpr ⟨place.2, mem_lockedFrom.mpr hp, rfl⟩⟩

/-- Places of one ID are in order. -/
def InOrder (a b : Bytes × Nat) : Prop :=
  a.1 = b.1 → a.2 < b.2

theorem places_inOrder (pubKeyHash : Bytes) (bucket : Bucket) :
    (places pubKeyHash (cursor bucket)).Pairwise InOrder := by
  refine List.pairwise_flatMap.mpr ⟨?_, ?_⟩
  · intro entry _
    have hrange : (List.range' 0 entry.2.length).Pairwise (· < ·) := List.pairwise_lt_range'
    refine List.pairwise_map.mpr ((hrange.filter _).imp ?_)
    intro p q hlt _
    exact hlt
  · have hids := List.pairwise_map.mp (nodup_cursor bucket)
    refine hids.imp ?_
    intro entry other hne a ha b hb heq
    obtain ⟨p, _, rfl⟩ := List.mem_map.mp ha
    obtain ⟨q, _, rfl⟩ := List.mem_map.mp hb
    exact absurd heq hne

section Places

variable {chain : Chain} {pubKeyHash : Bytes} {amount : Int}

theorem Valid.mem_places (h : Valid chain) {place : Bytes × Nat} :
    place ∈ places pubKeyHash (cursor (findUTXO chain)) ↔
      (∃ tx ∈ transactions chain, tx.id = place.1) ∧
        place.2 < (indexesAt chain place.1).length ∧
        (outputOn (outputsAt chain) (original chain place)).isLockedWithKey pubKeyHash =
          true := by
  rw [Bitcoin.mem_places]
  constructor
  · rintro ⟨outs, hget, hlt, hlocked⟩
    obtain ⟨htx, rfl⟩ := h.entry_eq hget
    rw [List.length_map] at hlt
    rw [outputOf_map _ _ hlt] at hlocked
    exact ⟨htx, hlt, hlocked⟩
  · rintro ⟨⟨tx, htx, hid⟩, hlt, hlocked⟩
    refine ⟨(indexesAt chain place.1).map (outputOf (outputsAt chain place.1)), ?_, ?_, ?_⟩
    · rw [← hid, h.findUTXO_get htx, stored, if_neg]
      intro hnil
      rw [List.map_eq_nil_iff, hid] at hnil
      rw [hnil] at hlt
      exact absurd hlt (Nat.not_lt_zero _)
    · rwa [List.length_map]
    · rwa [outputOf_map _ _ hlt]

/-- What a position of the bucket holds is the output that it stands for. -/
theorem Valid.outputOn_original (h : Valid chain) {place : Bytes × Nat}
    (hplace : place ∈ places pubKeyHash (cursor (findUTXO chain))) :
    outputOn (outputsAt chain) (original chain place) =
      outputOn (fun id => ((findUTXO chain).get id).getD []) place := by
  obtain ⟨outs, hget, hlt, _⟩ := Bitcoin.mem_places.mp hplace
  have houts := (h.entry_eq hget).2
  rw [outputOn, outputOn, hget, Option.getD_some]
  rw [houts, List.length_map] at hlt
  rw [houts, outputOf_map _ _ hlt]
  rfl

def foundPlaces (chain : Chain) (pubKeyHash : Bytes) (amount : Int) : List (Bytes × Nat) :=
  UTXOSet.placesOf (UTXOSet.findSpendableOutputs (findUTXO chain) pubKeyHash amount).2

theorem foundPlaces_starts (chain : Chain) (pubKeyHash : Bytes) (amount : Int) :
    foundPlaces chain pubKeyHash amount <+: places pubKeyHash (cursor (findUTXO chain)) := by
  rw [foundPlaces, UTXOSet.places_findSpendableOutputs]
  exact reach_starts _ _ _ _

theorem nodup_foundPlaces (chain : Chain) (pubKeyHash : Bytes) (amount : Int) :
    (foundPlaces chain pubKeyHash amount).Nodup := by
  refine (((places_inOrder pubKeyHash (findUTXO chain)).imp ?_).sublist
    (foundPlaces_starts chain pubKeyHash amount).sublist)
  rintro a b horder rfl
  exact absurd (horder rfl) (Nat.lt_irrefl _)

theorem Valid.needed_eq (h : Valid chain) (pubKeyHash : Bytes) (amount : Int) :
    needed chain pubKeyHash amount =
      (foundPlaces chain pubKeyHash amount).map (original chain) := by
  rw [needed, h.walletOutputs_eq, reach_map, foundPlaces,
    UTXOSet.places_findSpendableOutputs]
  congr 1
  refine reach_congr (fun place hplace => ?_) amount 0
  rw [Function.comp_apply, h.outputOn_original hplace]

/-- A place is that of its output exactly when all outputs before it are unspent. -/
theorem original_eq_self_iff {place : Bytes × Nat}
    (hlt : place.2 < (indexesAt chain place.1).length) :
    original chain place = place ↔ ∀ index : Nat, index < (original chain place).2 →
      (index : Int) ∉ named (inputs (transactions chain)) place.1 := by
  obtain ⟨id, p⟩ := place
  have hincreasing := indexesAt_increasing chain id
  have hget : (indexesAt chain id)[p]? = some ((indexesAt chain id).getD p 0) := by
    rw [List.getElem?_eq_getElem hlt, List.getD_eq_getElem _ _ hlt]
  dsimp only [original] at hlt ⊢
  generalize (indexesAt chain id).getD p 0 = i at hget ⊢
  have hmem := List.mem_of_getElem? hget
  constructor
  · intro heq index hindex
    obtain rfl : i = p := (Prod.mk.inj heq).2
    exact (mem_unspentIndexes.mp
      ((Lib.getElem?_eq_self_iff hincreasing).mp hget index (Nat.le_of_lt hindex))).2
  · intro hunspent
    have hself : (indexesAt chain id)[i]? = some i := by
      refine (Lib.getElem?_eq_self_iff hincreasing).mpr fun q hq => ?_
      rcases Nat.lt_or_eq_of_le hq with hlt | rfl
      · have hi := (mem_unspentIndexes.mp hmem).1
        exact mem_unspentIndexes.mpr ⟨by omega, hunspent q hlt⟩
      · exact hmem
    obtain ⟨hi, hati⟩ := List.getElem?_eq_some_iff.mp hself
    obtain ⟨hp, hatp⟩ := List.getElem?_eq_some_iff.mp hget
    have hsame : (indexesAt chain id)[i] = (indexesAt chain id)[p] := by rw [hati, hatp]
    rw [(Lib.nodup_of_increasing hincreasing).getElem_inj_iff.mp hsame]

/-- The output at the index is an unspent one of the key. -/
def Spendable (chain : Chain) (pubKeyHash : Bytes) (place : Bytes × Nat) : Prop :=
  place.2 ∈ indexesAt chain place.1 ∧
    (outputOn (outputsAt chain) place).isLockedWithKey pubKeyHash = true

theorem Valid.spendable_original (h : Valid chain) {place : Bytes × Nat}
    (hplace : place ∈ places pubKeyHash (cursor (findUTXO chain))) :
    Spendable chain pubKeyHash (original chain place) := by
  obtain ⟨_, hlt, hlocked⟩ := h.mem_places.mp hplace
  refine ⟨?_, hlocked⟩
  dsimp only [original]
  rw [List.getD_eq_getElem _ _ hlt]
  exact List.getElem_mem hlt

/-- If a place is the index of another output that can be spent, then that one has been
found before, at a place that is not its index either. -/
theorem Valid.original_eq_of_spendable (h : Valid chain)
    (hspendable : ∀ place ∈ foundPlaces chain pubKeyHash amount,
      Spendable chain pubKeyHash place) {id : Bytes} {p : Nat}
    (hplace : (id, p) ∈ foundPlaces chain pubKeyHash amount) :
    original chain (id, p) = (id, p) := by
  induction p using Nat.strong_induction_on with
  | _ p ih =>
      have hstarts := foundPlaces_starts chain pubKeyHash amount
      obtain ⟨hmem, hlocked⟩ := hspendable _ hplace
      obtain ⟨htx, hlt, _⟩ := h.mem_places.mp (hstarts.subset hplace)
      obtain ⟨q, hq, hqp⟩ := List.mem_iff_getElem.mp hmem
      have hle : q ≤ p := by
        have hle := Lib.le_getElem (indexesAt_increasing chain id) hq
        rw [hqp] at hle
        exact hle
      have horiginal : original chain (id, q) = (id, p) := by
        dsimp only [original]
        rw [List.getD_eq_getElem _ _ hq, hqp]
      rcases Nat.lt_or_eq_of_le hle with hbefore | rfl
      · have hqplace : (id, q) ∈ places pubKeyHash (cursor (findUTXO chain)) :=
          h.mem_places.mpr ⟨htx, hq, by rw [horiginal]; exact hlocked⟩
        obtain ⟨rest, hrest⟩ := hstarts
        have horder := places_inOrder pubKeyHash (findUTXO chain)
        rw [← hrest] at hqplace horder
        rcases List.mem_append.mp hqplace with hfound | hlater
        · have hself := ih q hbefore hfound
          rw [horiginal] at hself
          have := (Prod.mk.inj hself).2
          omega
        · have hlt := (List.pairwise_append.mp horder).2.2 _ hplace _ hlater rfl
          dsimp only at hlt
          omega
      · exact horiginal

theorem Valid.frontUnspent_iff (h : Valid chain) :
    FrontUnspent chain pubKeyHash amount ↔
      ∀ place ∈ foundPlaces chain pubKeyHash amount, original chain place = place := by
  have hlength : ∀ place ∈ foundPlaces chain pubKeyHash amount,
      place.2 < (indexesAt chain place.1).length := fun place hplace =>
    (h.mem_places.mp ((foundPlaces_starts chain pubKeyHash amount).subset hplace)).2.1
  unfold FrontUnspent
  rw [h.needed_eq, List.forall_mem_map]
  exact forall₂_congr fun place hplace => (original_eq_self_iff (hlength place hplace)).symm

theorem Valid.spendable_iff (h : Valid chain) :
    (∀ place ∈ foundPlaces chain pubKeyHash amount, Spendable chain pubKeyHash place) ↔
      FrontUnspent chain pubKeyHash amount := by
  rw [h.frontUnspent_iff]
  constructor
  · intro hspendable place hplace
    exact h.original_eq_of_spendable hspendable hplace
  · intro horiginal place hplace
    rw [← horiginal place hplace]
    exact h.spendable_original
      ((foundPlaces_starts chain pubKeyHash amount).subset hplace)

end Places

/-! The sums. -/

theorem total_cursor (measure : List TXOutput → Int) (hzero : measure [] = 0)
    (bucket : Bucket) : (bucket.total fun _ entry => measure (entry.getD [])) =
      ((cursor bucket).map fun entry => measure entry.2).sum := by
  rw [Lib.Mapping.total_eq_sum _ _ (nodup_cursor bucket) bucket (fun _ => hzero), List.map_map]
  · congr 1
    refine List.map_congr_left fun entry hentry => ?_
    rw [Function.comp_apply, mem_cursor.mp hentry]
    rfl
  · intro id hid
    by_contra hsome
    obtain ⟨outs, hget⟩ := Option.ne_none_iff_exists'.mp hsome
    exact hid (List.mem_map.mpr ⟨(id, outs), mem_cursor.mpr hget, rfl⟩)

section Sums

variable {chain : Chain}

theorem Valid.walletTotal_eq (h : Valid chain) (pubKeyHash : Bytes) :
    walletTotal chain pubKeyHash = ((walletOutputs chain pubKeyHash).map fun place =>
      (outputOn (outputsAt chain) place).value).sum := by
  have htotal : ((findUTXO chain).total fun _ entry =>
      value ((entry.getD []).filter (·.isLockedWithKey pubKeyHash))) =
        walletTotal chain pubKeyHash := by
    rw [walletTotal, Lib.Mapping.total_eq_sum _ ((transactions chain).map (·.id)) h.distinct
      (findUTXO chain) (fun _ => rfl) fun id hid => findUTXO_get_of_notMem hid, List.map_map]
    congr 1
    refine List.map_congr_left fun tx htx => ?_
    rw [Function.comp_apply, Bitcoin.findUTXO_get h htx, UTXOSet.getD_stored]
  rw [← htotal, total_cursor (fun outs => value (outs.filter (·.isLockedWithKey pubKeyHash)))
    rfl, walletOutputs, List.map_flatMap, List.flatMap_def, List.sum_flatten, List.map_map]
  congr 1
  refine List.map_congr_left fun entry hentry => ?_
  rw [Function.comp_apply, (h.entry_eq (mem_cursor.mp hentry)).2, List.filter_map, value,
    List.map_map, List.map_map]
  rfl

theorem picked_eq (outsOf : Bytes → List TXOutput) (found : List (Bytes × List Nat)) :
    (found.map fun group => picked (outsOf group.1) group.2).sum =
      ((UTXOSet.placesOf found).map fun place => (outputOn outsOf place).value).sum := by
  rw [UTXOSet.placesOf, List.map_flatMap, List.flatMap_def, List.sum_flatten, List.map_map]
  congr 1
  refine List.map_congr_left fun group _ => ?_
  rw [Function.comp_apply, List.map_map]
  rfl

/-- What is found adds up to what is needed, as far as an `int` has it. -/
theorem Valid.found_total (h : Valid chain) (pubKeyHash : Bytes) (amount : Int) :
    (UTXOSet.findSpendableOutputs (findUTXO chain) pubKeyHash amount).1 =
      wrap (neededTotal chain pubKeyHash amount) := by
  have hpicked := picked_eq (fun id => ((findUTXO chain).get id).getD [])
    (UTXOSet.findSpendableOutputs (findUTXO chain) pubKeyHash amount).2
  rw [(UTXOSet.findSpendableOutputs_spec _ _ _).2.2.1, neededTotal, h.needed_eq, List.map_map]
  refine congrArg wrap (hpicked.trans ?_)
  congr 1
  refine List.map_congr_left fun place hplace => ?_
  rw [Function.comp_apply,
    h.outputOn_original ((foundPlaces_starts chain pubKeyHash amount).subset hplace)]

theorem Valid.amount_le (h : Valid chain) {pubKeyHash : Bytes} {amount : Int}
    (hfunds : amount ≤ walletTotal chain pubKeyHash)
    (hfits : IsInt (neededTotal chain pubKeyHash amount)) :
    amount ≤ (UTXOSet.findSpendableOutputs (findUTXO chain) pubKeyHash amount).1 := by
  rw [h.walletTotal_eq] at hfunds
  rw [h.found_total, wrap_eq_self_iff.mpr hfits]
  exact le_sum_reach _ hfunds hfits

end Sums

theorem value_outputsOf {acc : Int} {cmd : SendCommand} (hacc : IsInt acc)
    (hamount : 0 < cmd.amount) (h : cmd.amount ≤ acc) : value (outputsOf acc cmd) = acc := by
  unfold outputsOf newTXOutput
  rw [subInt_eq hacc hamount h]
  split
  · simp
  · simp only [value_cons, value_nil]
    omega

/-! Transactions with the same unsigned part. -/

theorem outpoints_unsigned (tx : Transaction) :
    tx.unsigned.vin.map outpoint = tx.vin.map outpoint := by
  simp only [Transaction.unsigned, List.map_map]
  rfl

theorem outpoints_of_unsigned_eq {tx : Transaction} {id : Bytes} {vin : List TXInput}
    {vout : List TXOutput} (h : tx.unsigned = ⟨id, vin, vout⟩) :
    tx.vin.map outpoint = vin.map outpoint := by
  rw [← outpoints_unsigned, h]

theorem outpoints_of_unsigned {tx tx' : Transaction} (h : tx.unsigned = tx'.unsigned) :
    tx.vin.map outpoint = tx'.vin.map outpoint := by
  rw [← outpoints_unsigned, h, outpoints_unsigned]

theorem isCoinbase_inputsOf (publicKey id : Bytes) (order : List (Bytes × List Nat))
    (outs : List TXOutput) :
    (⟨id, inputsOf publicKey order, outs⟩ : Transaction).isCoinbase = false := by
  unfold Transaction.isCoinbase
  split
  · rename_i vin hvin
    have hmem : vin ∈ inputsOf publicKey order := by
      rw [show inputsOf publicKey order = [vin] from hvin]
      exact List.mem_cons_self
    obtain ⟨group, _, hvin⟩ := List.mem_flatMap.mp hmem
    obtain ⟨out, _, rfl⟩ := List.mem_map.mp hvin
    refine decide_eq_false fun ⟨_, hvout⟩ => ?_
    dsimp only at hvout
    omega
  · rfl

/-! The payment. -/

theorem outpoints_inputsOf (publicKey : Bytes) (order : List (Bytes × List Nat)) :
    (inputsOf publicKey order).map outpoint =
      (UTXOSet.placesOf order).map fun place => (place.1, (place.2 : Int)) := by
  rw [inputsOf, UTXOSet.placesOf, List.map_flatMap, List.map_flatMap]
  refine List.flatMap_congr fun group _ => ?_
  rw [List.map_map, List.map_map]
  rfl

section Payment

variable {crypto : Crypto} {chain : Chain} {cmd : SendCommand}

theorem placesOf_perm {pubKeyHash : Bytes}
    (horder : cmd.order.Perm
      (UTXOSet.findSpendableOutputs (findUTXO chain) pubKeyHash cmd.amount).2) :
    (UTXOSet.placesOf cmd.order).Perm (foundPlaces chain pubKeyHash cmd.amount) :=
  horder.flatMap_right _

/-- A found place is one of a transaction that has enough outputs. -/
theorem Valid.previous (h : Valid chain) {pubKeyHash : Bytes} {amount : Int}
    {place : Bytes × Nat} (hplace : place ∈ foundPlaces chain pubKeyHash amount) :
    ∃ prev ∈ transactions chain, prev.id = place.1 ∧ outputsAt chain place.1 = prev.vout ∧
      place.2 < prev.vout.length := by
  obtain ⟨⟨prev, hprev, hid⟩, hlt, _⟩ :=
    h.mem_places.mp ((foundPlaces_starts chain pubKeyHash amount).subset hplace)
  have houts : outputsAt chain place.1 = prev.vout := by rw [← hid, h.outputsAt_eq hprev]
  refine ⟨prev, hprev, hid, houts, ?_⟩
  have hlength : (indexesAt chain place.1).length ≤ (outputsAt chain place.1).length := by
    have hle := List.length_filter_le (fun i : Nat => decide ((i : Int) ∉
      Bitcoin.named (inputs (transactions chain)) place.1))
      (List.range (outputsAt chain place.1).length)
    rwa [List.length_range] at hle
  rw [houts] at hlength
  omega

theorem outputAt_of_lt {outs : List TXOutput} {p : Nat} (hp : p < outs.length) :
    outputAt outs p = some (outputOf outs p) := by
  rw [outputAt, if_neg (by omega), Int.toNat_natCast, List.getElem?_eq_getElem hp, outputOf,
    List.getD_eq_getElem _ _ hp]

/-- When there is money enough, the transaction is made and signed. -/
theorem newUTXOTransaction_isSome (hchain : Valid chain)
    (hstorable : ∀ id, (findUTXO chain).get id ≠ none → Storable id)
    (hfunds : cmd.amount ≤ walletTotal chain (hashPubKey crypto cmd.publicKey))
    (hfits : IsInt (neededTotal chain (hashPubKey crypto cmd.publicKey) cmd.amount))
    (horder : cmd.order.Perm (UTXOSet.findSpendableOutputs (findUTXO chain)
      (hashPubKey crypto cmd.publicKey) cmd.amount).2) :
    ∃ tx, newUTXOTransaction crypto chain (findUTXO chain) cmd = some tx := by
  unfold newUTXOTransaction
  dsimp only
  rw [if_neg (Int.not_lt.mpr (hchain.amount_le hfunds hfits)), if_pos horder]
  refine ⟨_, signTransaction_eq (isCoinbase_inputsOf _ _ _ _) ?_⟩
  intro vin hvin
  obtain ⟨group, hgroup, hvin⟩ := List.mem_flatMap.mp hvin
  obtain ⟨p, hp, rfl⟩ := List.mem_map.mp hvin
  have hplace : (group.1, p) ∈ foundPlaces chain (hashPubKey crypto cmd.publicKey) cmd.amount :=
    (placesOf_perm horder).mem_iff.mp
      (List.mem_flatMap.mpr ⟨group, hgroup, List.mem_map.mpr ⟨p, hp, rfl⟩⟩)
  obtain ⟨prev, hprev, hid, _, hlt⟩ := hchain.previous hplace
  refine ⟨prev, ?_, ?_, ?_⟩
  · rw [← hchain.findTransaction hprev, hid]
  · intro hempty
    obtain ⟨outs, hget, _⟩ := mem_places.mp ((foundPlaces_starts _ _ _).subset hplace)
    rw [← hid, hempty] at hget
    exact (hstorable [] (by rw [hget]; exact Option.some_ne_none outs)).1 rfl
  · rw [outputAt_of_lt hlt]
    rfl

theorem spendable_iff_named (hchain : Valid chain) {pubKeyHash : Bytes} {amount : Int}
    {place : Bytes × Nat} (hplace : place ∈ foundPlaces chain pubKeyHash amount) :
    Spendable chain pubKeyHash place ↔
      NamesUnspent chain pubKeyHash (place.1, (place.2 : Int)) := by
  obtain ⟨prev, hprev, hid, houts, hlt⟩ := hchain.previous hplace
  unfold Spendable outputOn
  rw [houts, indexesAt, houts, mem_unspentIndexes]
  constructor
  · rintro ⟨⟨_, hunspent⟩, hlocked⟩
    exact ⟨prev, hprev, hid, _, outputAt_of_lt hlt, hlocked, hunspent⟩
  · rintro ⟨other, hother, hotherid, out, hout, hlocked, hunspent⟩
    obtain rfl := hchain.unique hprev hother (hid.trans hotherid.symm)
    obtain rfl := Option.some.inj ((outputAt_of_lt hlt).symm.trans hout)
    exact ⟨⟨hlt, hunspent⟩, hlocked⟩

/-- The value that an input names is that of its place. -/
theorem namedValue_place (hchain : Valid chain) {pubKeyHash : Bytes} {amount : Int}
    {place : Bytes × Nat} (hplace : place ∈ foundPlaces chain pubKeyHash amount) :
    namedValue chain ⟨place.1, place.2, [], []⟩ =
      (outputOn (outputsAt chain) place).value := by
  obtain ⟨prev, hprev, hid, houts, hlt⟩ := hchain.previous hplace
  rw [Extends.namedValue_eq hchain hprev hid.symm ⟨_, outputAt_of_lt hlt⟩, outputOn, houts]
  rfl

theorem sum_namedValue {tx : Transaction} {order : List (Bytes × List Nat)}
    (hpoints : tx.vin.map outpoint =
      (UTXOSet.placesOf order).map fun place => (place.1, (place.2 : Int))) :
    (tx.vin.map (namedValue chain)).sum = ((UTXOSet.placesOf order).map fun place =>
      namedValue chain ⟨place.1, place.2, [], []⟩).sum := by
  have hvalues := congrArg (List.map fun point : Bytes × Int =>
    namedValue chain ⟨point.1, point.2, [], []⟩) hpoints
  rw [List.map_map, List.map_map] at hvalues
  exact congrArg List.sum hvalues

theorem pays_iff (hchain : Valid chain) (hamount : 0 < cmd.amount) {tx : Transaction}
    (h : newUTXOTransaction crypto chain (findUTXO chain) cmd = some tx) :
    Pays chain (hashPubKey crypto cmd.publicKey) tx ↔
      FrontUnspent chain (hashPubKey crypto cmd.publicKey) cmd.amount ∧
        IsInt (neededTotal chain (hashPubKey crypto cmd.publicKey) cmd.amount) := by
  obtain ⟨hle, horder, hunsigned⟩ := newUTXOTransaction_eq_some h
  have hperm := placesOf_perm horder
  have hpoints : tx.vin.map outpoint =
      (UTXOSet.placesOf cmd.order).map fun place => (place.1, (place.2 : Int)) := by
    rw [outpoints_of_unsigned_eq hunsigned, outpoints_inputsOf]
  have hvout : tx.vout = outputsOf (UTXOSet.findSpendableOutputs (findUTXO chain)
      (hashPubKey crypto cmd.publicKey) cmd.amount).1 cmd := congrArg Transaction.vout hunsigned
  have hunspent : (∀ vin ∈ tx.vin,
      NamesUnspent chain (hashPubKey crypto cmd.publicKey) (outpoint vin)) ↔
        FrontUnspent chain (hashPubKey crypto cmd.publicKey) cmd.amount := by
    rw [← List.forall_mem_map, hpoints, List.forall_mem_map, ← hchain.spendable_iff]
    constructor
    · intro hnames place hplace
      exact (spendable_iff_named hchain hplace).mpr
        (hnames place (hperm.mem_iff.mpr hplace))
    · intro hspendable place hplace
      have hplace := hperm.mem_iff.mp hplace
      exact (spendable_iff_named hchain hplace).mp (hspendable place hplace)
  have hvalue : FrontUnspent chain (hashPubKey crypto cmd.publicKey) cmd.amount →
      (tx.vin.map (namedValue chain)).sum =
        neededTotal chain (hashPubKey crypto cmd.publicKey) cmd.amount := by
    intro hfront
    have hsame := hchain.frontUnspent_iff.mp hfront
    rw [sum_namedValue hpoints, neededTotal, hchain.needed_eq, List.map_map,
      (hperm.map _).sum_eq]
    congr 1
    refine List.map_congr_left fun place hplace => ?_
    rw [namedValue_place hchain hplace, Function.comp_apply, hsame place hplace]
  have hmade : value tx.vout =
      wrap (neededTotal chain (hashPubKey crypto cmd.publicKey) cmd.amount) := by
    rw [hvout, value_outputsOf (UTXOSet.isInt_findSpendableOutputs _ _ _) hamount hle,
      hchain.found_total]
  constructor
  · intro hpays
    have hfront := hunspent.mp hpays.unspent
    refine ⟨hfront, wrap_eq_self_iff.mp ?_⟩
    rw [← hmade, ← hpays.balanced, hvalue hfront]
  · rintro ⟨hfront, hfits⟩
    refine ⟨?_, hunspent.mpr hfront, ?_⟩
    · rw [hpoints, (hperm.map _).nodup_iff]
      refine List.Nodup.map ?_ (nodup_foundPlaces chain _ cmd.amount)
      intro place other heq
      obtain ⟨hid, hindex⟩ := Prod.mk.inj heq
      exact Prod.ext hid (Int.ofNat_inj.mp hindex)
    · rw [hvalue hfront, hmade, wrap_eq_self_iff.mpr hfits]

theorem findSpendableOutputs_congr {bucket bucket' : Bucket}
    (h : ∀ id, bucket.get id = bucket'.get id) (pubKeyHash : Bytes) (amount : Int) :
    UTXOSet.findSpendableOutputs bucket pubKeyHash amount =
      UTXOSet.findSpendableOutputs bucket' pubKeyHash amount :=
  congrArg (UTXOSet.findSpendable pubKeyHash amount 0) (cursor_congr h)

theorem newUTXOTransaction_congr {bucket bucket' : Bucket}
    (h : ∀ id, bucket.get id = bucket'.get id) :
    newUTXOTransaction crypto chain bucket cmd = newUTXOTransaction crypto chain bucket' cmd := by
  unfold newUTXOTransaction
  rw [findSpendableOutputs_congr h]

/-- With money enough, the payment is right exactly when no output before one that is
needed has been spent, and those that are needed add up to an `int`. -/
theorem payment_iff (hchain : Valid chain) {chainstate : Bucket}
    (hbuilt : reindex chain = some chainstate) (hamount : 0 < cmd.amount)
    (hfunds : cmd.amount ≤ walletTotal chain (hashPubKey crypto cmd.publicKey))
    (horder : cmd.order.Perm (UTXOSet.findSpendableOutputs chainstate
      (hashPubKey crypto cmd.publicKey) cmd.amount).2) :
    (∃ tx, newUTXOTransaction crypto chain chainstate cmd = some tx ∧
        Pays chain (hashPubKey crypto cmd.publicKey) tx) ↔
      FrontUnspent chain (hashPubKey crypto cmd.publicKey) cmd.amount ∧
        IsInt (neededTotal chain (hashPubKey crypto cmd.publicKey) cmd.amount) := by
  have hget := reindex_get hbuilt
  have hstorable := reindex_isSome.mp (by rw [hbuilt]; rfl)
  rw [findSpendableOutputs_congr hget] at horder
  rw [newUTXOTransaction_congr hget]
  constructor
  · rintro ⟨tx, htx, hpays⟩
    exact (pays_iff hchain hamount htx).mp hpays
  · rintro ⟨hfront, hfits⟩
    obtain ⟨tx, htx⟩ := newUTXOTransaction_isSome hchain hstorable hfunds hfits horder
    exact ⟨tx, htx, (pays_iff hchain hamount htx).mpr ⟨hfront, hfits⟩⟩

end Payment

section Example

/-- Five coins of the key `8`. -/
def payFive (order : List (Bytes × List Nat)) : SendCommand :=
  { (default : SendCommand) with publicKey := [8], amount := 5, order }

/-- Both outputs of the first transaction are unspent. -/
theorem payment_iff_second : ∃ tx,
    newUTXOTransaction exampleCrypto [coinbaseBlock] (rebuilt [coinbaseBlock])
      (payFive [([1], [1])]) = some tx ∧
    Pays [coinbaseBlock] (hashPubKey exampleCrypto (payFive [([1], [1])]).publicKey) tx :=
  (payment_iff valid_coinbase (reindex_rebuilt (by decide +kernel)) (by decide)
    (by decide +kernel) (by decide +kernel)).mpr (by decide +kernel)

/-- The first output is spent, so that the second one has its place. -/
theorem payment_misplaced : ¬ ∀ (crypto : Crypto) (chain : Chain) (chainstate : Bucket)
    (cmd : SendCommand), Valid chain → reindex chain = some chainstate → 0 < cmd.amount →
    cmd.amount ≤ walletTotal chain (hashPubKey crypto cmd.publicKey) →
    cmd.order.Perm (UTXOSet.findSpendableOutputs chainstate
      (hashPubKey crypto cmd.publicKey) cmd.amount).2 →
    ∃ tx, newUTXOTransaction crypto chain chainstate cmd = some tx ∧
      Pays chain (hashPubKey crypto cmd.publicKey) tx := by
  intro h
  obtain ⟨tx, htx, hpays⟩ := h exampleCrypto [spentFirst, coinbaseBlock] _
    (payFive [([1], [0])]) valid_spentFirst (reindex_rebuilt (by decide +kernel)) (by decide)
    (by decide +kernel) (by decide +kernel)
  have hpoints : (newUTXOTransaction exampleCrypto [spentFirst, coinbaseBlock]
      (rebuilt [spentFirst, coinbaseBlock]) (payFive [([1], [0])])).map
        (fun tx => tx.vin.map outpoint) = some [([1], 0)] := by
    decide +kernel
  rw [htx, Option.map_some, Option.some.injEq] at hpoints
  have hnames : ∀ point ∈ tx.vin.map outpoint,
      NamesUnspent [spentFirst, coinbaseBlock] [8] point :=
    List.forall_mem_map.mpr hpays.unspent
  rw [hpoints] at hnames
  obtain ⟨_, _, _, _, _, _, hunspent⟩ := hnames _ (List.mem_singleton_self _)
  exact hunspent (by decide)

end Example

end BlockchainTutorial.Bitcoin
