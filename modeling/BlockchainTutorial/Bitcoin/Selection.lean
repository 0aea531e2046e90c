import BlockchainTutorial.Bitcoin.Send
import BlockchainTutorial.Bitcoin.Unspent

namespace BlockchainTutorial.Bitcoin

/-! Which outputs `FindSpendableOutputs` takes. -/

/-- The outputs of a key, each with the ID that it is stored under. -/
def owned (pubKeyHash : Bytes) (entries : List (Bytes × List TXOutput)) :
    List (Bytes × TXOutput) :=
  entries.flatMap fun entry =>
    (entry.2.filter (·.isLockedWithKey pubKeyHash)).map (entry.1, ·)

/-- The first outputs that reach an amount. -/
def reaching (amount : Int) (outs : List (Bytes × TXOutput)) : List (Bytes × TXOutput) :=
  reach (·.2.value) amount 0 outs

/-- The positions of the outputs of a key. -/
def lockedFrom (pubKeyHash : Bytes) (all : List TXOutput) (start n : Nat) : List Nat :=
  (List.range' start n).filter fun p => (outputOf all p).isLockedWithKey pubKeyHash

def places (pubKeyHash : Bytes) (entries : List (Bytes × List TXOutput)) :
    List (Bytes × Nat) :=
  entries.flatMap fun entry =>
    (lockedFrom pubKeyHash entry.2 0 entry.2.length).map (entry.1, ·)

def outputOn (outsOf : Bytes → List TXOutput) (place : Bytes × Nat) : TXOutput :=
  outputOf (outsOf place.1) place.2

theorem map_outputOf (outs : List TXOutput) :
    (List.range' 0 outs.length).map (outputOf outs) = outs := by
  refine List.ext_getElem ?_ ?_
  · rw [List.length_map, List.length_range']
  · intro p _ hp
    rw [List.getElem_map, List.getElem_range', Nat.zero_add, Nat.one_mul, outputOf,
      List.getD_eq_getElem _ _ hp]

theorem owned_eq {pubKeyHash : Bytes} {outsOf : Bytes → List TXOutput}
    {entries : List (Bytes × List TXOutput)}
    (houts : ∀ entry ∈ entries, outsOf entry.1 = entry.2) :
    owned pubKeyHash entries =
      (places pubKeyHash entries).map fun place => (place.1, outputOn outsOf place) := by
  unfold owned places
  rw [List.map_flatMap]
  refine List.flatMap_congr fun entry hentry => ?_
  conv_lhs => rw [← map_outputOf entry.2]
  rw [List.filter_map, List.map_map, List.map_map, lockedFrom, ← houts entry hentry]
  rfl

def picked (outs : List TXOutput) (positions : List Nat) : Int :=
  (positions.map fun p => (outputOf outs p).value).sum

@[simp] theorem picked_cons (outs : List TXOutput) (p : Nat) (ps : List Nat) :
    picked outs (p :: ps) = (outputOf outs p).value + picked outs ps :=
  List.sum_cons

/-- Positions of a list, in order and from `start` on. -/
structure Positions (start : Nat) (outs : List TXOutput) (positions : List Nat) : Prop where
  increasing : positions.Pairwise (· < ·)
  inside : ∀ p ∈ positions, start ≤ p ∧ p < outs.length

theorem Positions.cons {start : Nat} {outs : List TXOutput} {ps : List Nat}
    (h : Positions (start + 1) outs ps) (hstart : start < outs.length) :
    Positions start outs (start :: ps) := by
  constructor
  · exact List.pairwise_cons.mpr ⟨fun p hp => (h.inside p hp).1, h.increasing⟩
  · intro p hp
    rcases List.mem_cons.mp hp with rfl | hp
    · exact ⟨Nat.le_refl _, hstart⟩
    · exact ⟨Nat.le_of_lt (h.inside p hp).1, (h.inside p hp).2⟩

theorem Positions.weaken {start : Nat} {outs : List TXOutput} {ps : List Nat}
    (h : Positions (start + 1) outs ps) : Positions start outs ps :=
  ⟨h.increasing, fun p hp => ⟨Nat.le_of_lt (h.inside p hp).1, (h.inside p hp).2⟩⟩

namespace UTXOSet

variable {pubKeyHash : Bytes} {amount : Int}

theorem spendable_of_le {accumulated : Int} (h : amount ≤ accumulated) (outIdx : Nat)
    (outs : List TXOutput) :
    spendable pubKeyHash amount accumulated outIdx outs = (accumulated, []) := by
  induction outs generalizing outIdx with
  | nil => rfl
  | cons out outs ih => rw [spendable, if_neg (by omega), ih]

/-- One entry: what is added up, at which positions, and which of the first places that
reach the amount they are. -/
theorem spendable_spec {outsOf : Bytes → List TXOutput} (txID : Bytes)
    (later : List (Bytes × Nat)) {outs : List TXOutput} {outIdx : Nat}
    (hall : (outsOf txID).drop outIdx = outs) (sum : Int) :
    let found := spendable pubKeyHash amount (wrap sum) outIdx outs
    let worth := fun place => (outputOn outsOf place).value
    found.1 = wrap (sum + picked (outsOf txID) found.2) ∧
      Positions outIdx (outsOf txID) found.2 ∧
      reach worth amount (wrap sum)
          ((lockedFrom pubKeyHash (outsOf txID) outIdx outs.length).map (txID, ·) ++ later) =
        found.2.map (txID, ·) ++ reach worth amount found.1 later := by
  induction outs generalizing outIdx sum with
  | nil => exact ⟨congrArg wrap (Int.add_zero _).symm, ⟨.nil, nofun⟩, rfl⟩
  | cons out outs ih =>
      have hget : (outsOf txID)[outIdx]? = some out := by
        rw [← List.head?_drop, hall]
        rfl
      obtain ⟨hlt, _⟩ := List.getElem?_eq_some_iff.mp hget
      have hrest : (outsOf txID).drop (outIdx + 1) = outs := by
        rw [← List.tail_drop, hall]
        rfl
      have hout : outputOf (outsOf txID) outIdx = out := by
        rw [outputOf, List.getD_eq_getElem?_getD, hget]
        rfl
      have hrange : lockedFrom pubKeyHash (outsOf txID) outIdx (out :: outs).length =
          if out.isLockedWithKey pubKeyHash then
            outIdx :: lockedFrom pubKeyHash (outsOf txID) (outIdx + 1) outs.length
          else lockedFrom pubKeyHash (outsOf txID) (outIdx + 1) outs.length := by
        rw [lockedFrom, List.length_cons, List.range'_succ, List.filter_cons, hout]
        rfl
      dsimp only
      rw [hrange]
      unfold spendable
      by_cases htake : out.isLockedWithKey pubKeyHash = true ∧ wrap sum < amount
      · obtain ⟨hvalue, hpositions, hreach⟩ := ih hrest (sum + out.value)
        rw [if_pos htake, if_pos htake.1, addInt_wrap]
        refine ⟨?_, hpositions.cons hlt, ?_⟩
        · dsimp only
          rw [hvalue, picked_cons, hout, Int.add_assoc]
        · have hworth : (outputOn outsOf (txID, outIdx)).value = out.value := by
            rw [outputOn, hout]
          rw [List.map_cons, List.cons_append, reach_cons _ htake.2, hworth, addInt_wrap,
            hreach]
          rfl
      · rw [if_neg htake]
        obtain ⟨hvalue, hpositions, hreach⟩ := ih hrest sum
        refine ⟨hvalue, hpositions.weaken, ?_⟩
        by_cases hlocked : out.isLockedWithKey pubKeyHash = true
        · have hle : amount ≤ wrap sum := by
            by_contra hnot
            exact htake ⟨hlocked, by omega⟩
          rw [spendable_of_le hle, reach_of_le _ hle, reach_of_le _ hle]
          rfl
        · rw [if_neg hlocked]
          exact hreach

/-- What `findSpendable` finds in entries, where `outsOf` gives the outputs of an ID. -/
structure Found (outsOf : Bytes → List TXOutput) (entries : List (Bytes × List TXOutput))
    (found : List (Bytes × List Nat)) : Prop where
  ids : (found.map (·.1)).Sublist (entries.map (·.1))
  positions : ∀ group ∈ found, group.2 ≠ [] ∧ Positions 0 (outsOf group.1) group.2

def placesOf (found : List (Bytes × List Nat)) : List (Bytes × Nat) :=
  found.flatMap fun group => group.2.map (group.1, ·)

theorem findSpendable_spec {outsOf : Bytes → List TXOutput}
    {entries : List (Bytes × List TXOutput)}
    (houts : ∀ entry ∈ entries, outsOf entry.1 = entry.2) (sum : Int) :
    let found := findSpendable pubKeyHash amount (wrap sum) entries
    Found outsOf entries found.2 ∧
      found.1 = wrap (sum + (found.2.map fun group => picked (outsOf group.1) group.2).sum) ∧
      reach (fun place => (outputOn outsOf place).value) amount (wrap sum)
        (places pubKeyHash entries) = placesOf found.2 := by
  induction entries generalizing sum with
  | nil => exact ⟨⟨.slnil, nofun⟩, congrArg wrap (Int.add_zero _).symm, rfl⟩
  | cons entry entries ih =>
      obtain ⟨txID, outs⟩ := entry
      have houtsOf : outsOf txID = outs := houts _ List.mem_cons_self
      subst houtsOf
      obtain ⟨hvalue, hpositions, hreach⟩ := @spendable_spec pubKeyHash amount outsOf txID
        (places pubKeyHash entries) (outsOf txID) 0 rfl sum
      unfold findSpendable
      generalize spendable pubKeyHash amount (wrap sum) 0 (outsOf txID) = first at *
      obtain ⟨hfound, hsum, hrest⟩ :=
        ih (fun entry hentry => houts entry (List.mem_cons_of_mem _ hentry))
          (sum + picked (outsOf txID) first.2)
      rw [← hvalue] at hfound hsum hrest
      dsimp only at hfound hsum hrest ⊢
      generalize findSpendable pubKeyHash amount first.1 entries = later at *
      rw [hrest] at hreach
      refine ⟨?_, ?_, hreach.trans ?_⟩
      · split
        · exact ⟨hfound.ids.cons _, hfound.positions⟩
        · rename_i hne
          refine ⟨hfound.ids.cons_cons _, fun group hgroup => ?_⟩
          rcases List.mem_cons.mp hgroup with rfl | hgroup
          · exact ⟨hne, hpositions⟩
          · exact hfound.positions group hgroup
      · rw [hsum]
        split
        · rename_i hnone
          rw [hnone]
          simp [picked]
        · rw [List.map_cons, List.sum_cons, Int.add_assoc]
      · split
        · rename_i hnone
          rw [hnone]
          rfl
        · rfl

end UTXOSet

/-! The cursor. -/

theorem cursor_perm (bucket : Bucket) : (cursor bucket).Perm
    (bucket.written.entries.filterMap fun entry => entry.2.map (entry.1, ·)) :=
  List.perm_insertionSort _ _

theorem mem_cursor {bucket : Bucket} {entry : Bytes × List TXOutput} :
    entry ∈ cursor bucket ↔ bucket.get entry.1 = some entry.2 := by
  rw [(cursor_perm bucket).mem_iff, List.mem_filterMap]
  constructor
  · rintro ⟨⟨id, found⟩, hfound, hsome⟩
    obtain ⟨outs, rfl, rfl⟩ := Option.map_eq_some_iff.mp hsome
    exact Lib.Mapping.get_of_mem_entries hfound
  · intro hget
    refine ⟨⟨entry.1, some entry.2⟩, ?_, rfl⟩
    rw [← AList.mem_lookup_iff]
    unfold Lib.Mapping.get at hget
    cases hlookup : bucket.written.lookup entry.1 with
    | none =>
        rw [hlookup] at hget
        cases hget
    | some found =>
        rw [hlookup, Option.getD_some] at hget
        rw [hget]
        rfl

theorem getD_of_mem_cursor (bucket : Bucket) :
    let outsOf := fun id => (bucket.get id).getD []
    ∀ entry ∈ cursor bucket, outsOf entry.1 = entry.2 := by
  intro outsOf entry hentry
  change (bucket.get entry.1).getD [] = entry.2
  rw [mem_cursor.mp hentry]
  rfl

theorem keys_sublist (entries : List (Sigma fun _ : Bytes => Option (List TXOutput))) :
    ((entries.filterMap fun entry => entry.2.map (entry.1, ·)).map (·.1)).Sublist
      entries.keys := by
  induction entries with
  | nil => exact .slnil
  | cons entry entries ih =>
      obtain ⟨id, found⟩ := entry
      cases found with
      | none => exact ih.cons _
      | some outs => exact ih.cons_cons _

theorem nodup_cursor (bucket : Bucket) : ((cursor bucket).map (·.1)).Nodup := by
  rw [((cursor_perm bucket).map _).nodup_iff]
  exact (keys_sublist _).nodup bucket.written.nodupKeys

theorem notAfter_total (a b : Bytes) : notAfter a b = true ∨ notAfter b a = true := by
  induction a generalizing b with
  | nil => exact .inl rfl
  | cons x xs ih =>
      cases b with
      | nil => exact .inr rfl
      | cons y ys =>
          unfold notAfter
          by_cases hxy : x = y
          · rw [if_pos hxy, if_pos hxy.symm]
            exact ih ys
          · rw [if_neg hxy, if_neg (Ne.symm hxy), decide_eq_true_iff, decide_eq_true_iff]
            have hne : x.toNat ≠ y.toNat := fun heq => hxy (UInt8.toNat_inj.mp heq)
            omega

theorem notAfter_trans {a b c : Bytes} (hab : notAfter a b = true) (hbc : notAfter b c = true) :
    notAfter a c = true := by
  induction a generalizing b c with
  | nil => rfl
  | cons x xs ih =>
      cases b with
      | nil => cases hab
      | cons y ys =>
          cases c with
          | nil => cases hbc
          | cons z zs =>
              unfold notAfter at hab hbc ⊢
              by_cases hxy : x = y
              · subst hxy
                rw [if_pos rfl] at hab
                by_cases hxz : x = z
                · rw [if_pos hxz] at hbc ⊢
                  exact ih hab hbc
                · rwa [if_neg hxz] at hbc ⊢
              · rw [if_neg hxy, decide_eq_true_iff] at hab
                have hle : y.toNat ≤ z.toNat := by
                  split at hbc
                  · rename_i hyz
                    rw [hyz]
                  · exact Nat.le_of_lt (of_decide_eq_true hbc)
                have hne : x ≠ z := by
                  rintro rfl
                  omega
                rw [if_neg hne, decide_eq_true_iff]
                omega

theorem notAfter_antisymm {a b : Bytes} (hab : notAfter a b = true) (hba : notAfter b a = true) :
    a = b := by
  induction a generalizing b with
  | nil =>
      cases b with
      | nil => rfl
      | cons y ys => cases hba
  | cons x xs ih =>
      cases b with
      | nil => cases hab
      | cons y ys =>
          unfold notAfter at hab hba
          by_cases hxy : x = y
          · rw [if_pos hxy] at hab
            rw [if_pos hxy.symm] at hba
            rw [hxy, ih hab hba]
          · rw [if_neg hxy, decide_eq_true_iff] at hab
            rw [if_neg (Ne.symm hxy), decide_eq_true_iff] at hba
            omega

/-- The cursor visits what is in the bucket in the order of the keys, however it came to
be there. -/
theorem cursor_congr {bucket bucket' : Bucket} (h : ∀ id, bucket.get id = bucket'.get id) :
    cursor bucket = cursor bucket' := by
  have hnodup : ∀ bucket : Bucket, (cursor bucket).Nodup := fun bucket =>
    List.Nodup.of_map _ (nodup_cursor bucket)
  have hperm : (cursor bucket).Perm (cursor bucket') :=
    (List.perm_ext_iff_of_nodup (hnodup _) (hnodup _)).mpr fun entry => by
      rw [mem_cursor, mem_cursor, h]
  have hsorted : ∀ bucket : Bucket,
      (cursor bucket).Pairwise fun a b => notAfter a.1 b.1 = true := fun bucket => by
    have : Std.Total fun a b : Bytes × List TXOutput => notAfter a.1 b.1 = true :=
      ⟨fun a b => notAfter_total a.1 b.1⟩
    have : IsTrans (Bytes × List TXOutput) fun a b => notAfter a.1 b.1 = true :=
      ⟨fun a b c => notAfter_trans⟩
    exact List.pairwise_insertionSort _ _
  refine List.Perm.eq_of_pairwise (fun a b ha hb hab hba => ?_) (hsorted _) (hsorted _) hperm
  have hget := mem_cursor.mp ha
  rw [Prod.ext_iff, notAfter_antisymm hab hba]
  rw [h, notAfter_antisymm hab hba, mem_cursor.mp hb] at hget
  exact ⟨rfl, (Option.some.inj hget).symm⟩

/-! Groups of positions, each of another entry. -/

theorem nodup_flatMap_replicate {groups : List (Bytes × List Nat)}
    (hids : (groups.map (·.1)).Nodup) (hne : ∀ group ∈ groups, group.2 ≠ []) :
    (groups.flatMap fun group => List.replicate group.2.length group.1).Nodup ↔
      ∀ group ∈ groups, group.2.length = 1 := by
  induction groups with
  | nil => simp
  | cons group groups ih =>
      obtain ⟨hfirst, hrest⟩ := List.nodup_cons.mp hids
      have hpos := List.length_pos_iff.mpr (hne group List.mem_cons_self)
      rw [List.flatMap_cons, List.nodup_append, List.nodup_replicate, List.forall_mem_cons,
        ih hrest fun other hother => hne other (List.mem_cons_of_mem _ hother)]
      constructor
      · rintro ⟨hle, hall, _⟩
        exact ⟨Nat.le_antisymm hle hpos, hall⟩
      · rintro ⟨hone, hall⟩
        refine ⟨Nat.le_of_eq hone, hall, ?_⟩
        rintro id hid _ hother rfl
        obtain rfl := List.eq_of_mem_replicate hid
        obtain ⟨other, hmem, hother⟩ := List.mem_flatMap.mp hother
        exact hfirst (List.mem_map.mpr ⟨other, hmem, (List.eq_of_mem_replicate hother).symm⟩)

namespace UTXOSet

/-- The places that `FindSpendableOutputs` returns are the first ones that reach the
amount. -/
theorem places_findSpendableOutputs (bucket : Bucket) (pubKeyHash : Bytes) (amount : Int) :
    let outsOf := fun id => (bucket.get id).getD []
    placesOf (findSpendableOutputs bucket pubKeyHash amount).2 =
      reach (fun place => (outputOn outsOf place).value) amount 0
        (places pubKeyHash (cursor bucket)) := by
  intro outsOf
  obtain ⟨_, _, hreach⟩ := @findSpendable_spec pubKeyHash amount outsOf
    (cursor bucket) (getD_of_mem_cursor bucket) 0
  exact hreach.symm

theorem reaching_owned (bucket : Bucket) (pubKeyHash : Bytes) (amount : Int) :
    let outsOf := fun id => (bucket.get id).getD []
    reaching amount (owned pubKeyHash (cursor bucket)) =
      (placesOf (findSpendableOutputs bucket pubKeyHash amount).2).map fun place =>
        (place.1, outputOn outsOf place) := by
  intro outsOf
  have houts : ∀ entry ∈ cursor bucket, outsOf entry.1 = entry.2 := getD_of_mem_cursor bucket
  rw [reaching, owned_eq houts, reach_map, places_findSpendableOutputs]
  rfl

/-- It returns outputs of the key at their positions, and what an `int` has of their sum.
It takes two of one entry exactly when the first outputs that reach the amount have two of
one ID. -/
theorem findSpendableOutputs_spec (bucket : Bucket) (pubKeyHash : Bytes) (amount : Int) :
    let outsOf := fun id => (bucket.get id).getD []
    let found := findSpendableOutputs bucket pubKeyHash amount
    (found.2.map (·.1)).Nodup ∧
      (∀ group ∈ found.2, bucket.get group.1 = some (outsOf group.1) ∧ group.2 ≠ [] ∧
        Positions 0 (outsOf group.1) group.2) ∧
      found.1 = wrap (found.2.map fun group => picked (outsOf group.1) group.2).sum ∧
      (((reaching amount (owned pubKeyHash (cursor bucket))).map (·.1)).Nodup ↔
        ∀ group ∈ found.2, group.2.length = 1) := by
  intro outsOf found
  have houts : ∀ entry ∈ cursor bucket, outsOf entry.1 = entry.2 := getD_of_mem_cursor bucket
  obtain ⟨hfound, hsum, _⟩ := @findSpendable_spec pubKeyHash amount outsOf
    (cursor bucket) houts 0
  have hids := hfound.ids.nodup (nodup_cursor bucket)
  refine ⟨hids, fun group hgroup => ⟨?_, hfound.positions group hgroup⟩, ?_, ?_⟩
  · obtain ⟨entry, hentry, hid⟩ := List.mem_map.mp
      (hfound.ids.subset (List.mem_map_of_mem hgroup))
    have hget := mem_cursor.mp hentry
    rw [← hid, houts entry hentry]
    exact hget
  · rw [Int.zero_add] at hsum
    exact hsum
  · have hreaching : (reaching amount (owned pubKeyHash (cursor bucket))).map (·.1) =
        found.2.flatMap fun group => List.replicate group.2.length group.1 := by
      rw [reaching_owned, placesOf, List.map_map, List.map_flatMap]
      refine List.flatMap_congr fun group _ => ?_
      rw [List.map_map]
      exact List.map_const'
    rw [hreaching]
    exact nodup_flatMap_replicate hids fun group hgroup => (hfound.positions group hgroup).1

/-- What is found was added up in an `int`. -/
theorem isInt_findSpendableOutputs (bucket : Bucket) (pubKeyHash : Bytes) (amount : Int) :
    IsInt (findSpendableOutputs bucket pubKeyHash amount).1 := by
  rw [(findSpendableOutputs_spec _ _ _).2.2.1]
  exact isInt_wrap _

end UTXOSet

end BlockchainTutorial.Bitcoin
