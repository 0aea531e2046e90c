import BlockchainTutorial.Fabric.Stub
import BlockchainTutorial.Lib.Json

namespace BlockchainTutorial.Fabric

/-! The range queries of the state database, and the text that `queryAllCars` and
`queryAllBooks` make of one. -/

section Range

variable {V : Type}

def inRange (startKey endKey : String) : (Sigma fun _ : Key => Option V) → Option (String × V)
  | ⟨.simple key, some value⟩ => if startKey ≤ key ∧ key < endKey then some (key, value) else none
  | _ => none

def rangeEntries (state : WorldState V) (startKey endKey : String) : List (String × V) :=
  state.written.entries.filterMap (inRange startKey endKey)

/-- The entries come in the order of their keys. -/
def getStateByRange (state : WorldState V) (startKey endKey : String) : List (String × V) :=
  (rangeEntries state startKey endKey).insertionSort fun first second => first.1 ≤ second.1

/-- The key is written as it is. -/
def row (marshal : V → List Char) (key : String) (value : V) : List Char :=
  "\x7b\"Key\":\"".toList ++ (key.toList ++ ("\", \"Record\":".toList ++
    (marshal value ++ ['\x7d'])))

/-- The loop over the entries. -/
def writeRows (marshal : V → List Char) : List (String × V) → Bool → List Char → List Char
  | [], _, buffer => buffer
  | (key, value) :: entries, bArrayMemberAlreadyWritten, buffer =>
      let buffer := if bArrayMemberAlreadyWritten then buffer ++ [','] else buffer
      writeRows marshal entries true (buffer ++ row marshal key value)

def queryAll (marshal : V → List Char) (state : WorldState V) (startKey endKey : String) :
    List Char :=
  writeRows marshal (getStateByRange state startKey endKey) false ['['] ++ [']']

theorem writeRows_append (marshal : V → List Char) (entries : List (String × V))
    (before buffer : List Char) :
    writeRows marshal entries true (before ++ buffer) =
      before ++ writeRows marshal entries true buffer := by
  induction entries generalizing buffer with
  | nil => rfl
  | cons entry entries ih =>
      rw [writeRows, writeRows, if_pos rfl, if_pos rfl, List.append_assoc before,
        List.append_assoc before, ih]

theorem writeRows_eq (marshal : V → List Char) (first : String × V)
    (entries : List (String × V)) :
    writeRows marshal entries true (row marshal first.1 first.2) =
      [','].intercalate ((first :: entries).map fun entry => row marshal entry.1 entry.2) := by
  induction entries generalizing first with
  | nil => exact List.intercalate_singleton.symm
  | cons entry entries ih =>
      rw [writeRows, if_pos rfl, writeRows_append, ih, List.map_cons, List.map_cons,
        List.map_cons, List.intercalate_cons_cons]

theorem queryAll_eq (marshal : V → List Char) (state : WorldState V)
    (startKey endKey : String) :
    queryAll marshal state startKey endKey =
      Lib.Json.array ((getStateByRange state startKey endKey).map fun entry =>
        row marshal entry.1 entry.2) := by
  rw [queryAll, Lib.Json.array]
  cases getStateByRange state startKey endKey with
  | nil => rfl
  | cons entry entries =>
      rw [writeRows, if_neg Bool.false_ne_true, writeRows_append, writeRows_eq]
      rfl

/-! What a range query finds. -/

structure Lists (state : WorldState V) (startKey endKey : String)
    (entries : List (String × V)) : Prop where
  ordered : entries.Pairwise fun first second => first.1 < second.1
  mem_iff : ∀ key value, (key, value) ∈ entries ↔
    startKey ≤ key ∧ key < endKey ∧ state.get (.simple key) = some value

theorem inRange_eq_some {startKey endKey key : String}
    {entry : Sigma fun _ : Key => Option V} {value : V}
    (h : inRange startKey endKey entry = some (key, value)) :
    startKey ≤ key ∧ key < endKey ∧ entry = ⟨.simple key, some value⟩ := by
  unfold inRange at h
  split at h
  · split at h
    · rename_i hkeys
      cases h
      exact ⟨hkeys.1, hkeys.2, rfl⟩
    · cases h
  · cases h

theorem mem_rangeEntries {state : WorldState V} {startKey endKey key : String} {value : V} :
    (key, value) ∈ rangeEntries state startKey endKey ↔
      startKey ≤ key ∧ key < endKey ∧ state.get (.simple key) = some value := by
  rw [rangeEntries, List.mem_filterMap, ← mem_entries_iff]
  constructor
  · rintro ⟨entry, hentry, hrange⟩
    obtain ⟨hstart, hend, rfl⟩ := inRange_eq_some hrange
    exact ⟨hstart, hend, hentry⟩
  · rintro ⟨hstart, hend, hentry⟩
    exact ⟨_, hentry, if_pos ⟨hstart, hend⟩⟩

theorem rangeEntries_apart (state : WorldState V) (startKey endKey : String) :
    (rangeEntries state startKey endKey).Pairwise fun first second =>
      first.1 ≠ second.1 := by
  refine List.Pairwise.filterMap _ ?_ (List.nodupKeys_iff_pairwise.mp state.written.nodupKeys)
  rintro entry other hne ⟨key, value⟩ hentry ⟨otherKey, otherValue⟩ hother
  rw [(inRange_eq_some hentry).2.2, (inRange_eq_some hother).2.2] at hne
  exact fun heq => hne (congrArg Key.simple heq)

theorem lists_getStateByRange (state : WorldState V) (startKey endKey : String) :
    Lists state startKey endKey (getStateByRange state startKey endKey) where
  ordered := by
    let le : String × V → String × V → Prop := fun first second => first.1 ≤ second.1
    have htotal : Std.Total le := ⟨fun first second => le_total first.1 second.1⟩
    have htrans : IsTrans (String × V) le := ⟨fun _ _ _ => le_trans⟩
    have hsorted := List.pairwise_insertionSort le (rangeEntries state startKey endKey)
    have hapart := (List.perm_insertionSort le (rangeEntries state startKey endKey)).symm.pairwise
      (rangeEntries_apart state startKey endKey) Ne.symm
    exact hsorted.imp₂ (fun _ _ => lt_of_le_of_ne) hapart
  mem_iff key value := by
    rw [getStateByRange, List.mem_insertionSort]
    exact mem_rangeEntries

end Range

end BlockchainTutorial.Fabric
