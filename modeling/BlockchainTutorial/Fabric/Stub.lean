import Mathlib.Data.List.Lex
import Mathlib.Data.List.Sort
import Mathlib.Data.String.Basic
import BlockchainTutorial.Lib.Mapping

namespace BlockchainTutorial.Fabric

/-! The state database, and the functions of the stub that the chaincodes call. A
composite key has an object type and attributes, in a range of its own. -/

inductive Key where
  | simple (key : String)
  | composite (objectType : String) (attributes : List String)
  deriving DecidableEq

abbrev WorldState (V : Type) := Lib.Mapping Key (Option V)

/-- `PutState` gives a value, and `DelState` none. -/
abbrev Write (V : Type) := Key × Option V

/-- The parts are joined by U+0000, and U+10FFFF ends a range. -/
def isKeyPart (part : String) : Bool :=
  part.toList.all fun c => c.toNat ≠ 0 ∧ c.toNat ≠ 0x10FFFF

def createCompositeKey (objectType : String) (attributes : List String) :
    Except String Key :=
  if (objectType :: attributes).all isKeyPart then .ok (.composite objectType attributes)
  else .error "input contains unicode that is not allowed"

section State

variable {V : Type}

/-- A transaction reads the state before it. Its writes are applied in order when it
succeeds. -/
def commit (state : WorldState V) (writes : List (Write V)) : WorldState V :=
  writes.foldl (fun state write => state.set write.1 write.2) state

/-- The attributes and the value of an entry under a partial composite key. -/
def underPartialKey (objectType : String) (keys : List String) :
    (Sigma fun _ : Key => Option V) → Option (List String × V)
  | ⟨.composite type attributes, some value⟩ =>
      if type = objectType ∧ keys <+: attributes then some (attributes, value) else none
  | _ => none

def partialEntries (state : WorldState V) (objectType : String) (keys : List String) :
    List (List String × V) :=
  state.written.entries.filterMap (underPartialKey objectType keys)

/-- The values come in the order of their keys. -/
def getStateByPartialCompositeKey (state : WorldState V) (objectType : String)
    (keys : List String) : Except String (List V) := do
  let _ ← createCompositeKey objectType keys
  .ok (((partialEntries state objectType keys).insertionSort
    fun first second => first.1 ≤ second.1).map Prod.snd)

@[simp] theorem commit_nil (state : WorldState V) : commit state [] = state := rfl

@[simp] theorem commit_cons (state : WorldState V) (write : Write V)
    (writes : List (Write V)) :
    commit state (write :: writes) = commit (state.set write.1 write.2) writes := rfl

theorem commit_append (state : WorldState V) (writes more : List (Write V)) :
    commit state (writes ++ more) = commit (commit state writes) more :=
  List.foldl_append

theorem get_commit_of_not_mem (state : WorldState V) {writes : List (Write V)} {key : Key}
    (h : ∀ write ∈ writes, write.1 ≠ key) : (commit state writes).get key = state.get key := by
  induction writes generalizing state with
  | nil => rfl
  | cons write writes ih =>
      rw [commit_cons, ih _ fun other hother => h other (List.mem_cons_of_mem _ hother)]
      exact Lib.Mapping.get_set_of_ne _ _ (Ne.symm (h write List.mem_cons_self))

theorem createCompositeKey_eq_ok {objectType : String} {attributes : List String} {key : Key}
    (h : createCompositeKey objectType attributes = .ok key) :
    key = .composite objectType attributes := by
  unfold createCompositeKey at h
  split at h
  · cases h
    rfl
  · cases h

theorem isKeyPart_of_ok {objectType : String} {attributes : List String} {key : Key}
    (h : createCompositeKey objectType attributes = .ok key) {part : String}
    (hpart : part ∈ attributes) : isKeyPart part = true := by
  unfold createCompositeKey at h
  split at h
  · rename_i hall
    exact List.all_eq_true.mp hall part (List.mem_cons_of_mem _ hpart)
  · cases h

theorem mem_entries_iff {state : WorldState V} {key : Key} {value : V} :
    ⟨key, some value⟩ ∈ state.written.entries ↔ state.get key = some value := by
  refine ⟨Lib.Mapping.get_of_mem_entries, fun h => ?_⟩
  rw [Lib.Mapping.get] at h
  cases hlookup : state.written.lookup key with
  | none => rw [hlookup] at h; cases h
  | some found =>
      rw [hlookup, Option.getD_some] at h
      rw [h] at hlookup
      exact AList.mem_lookup_iff.mp hlookup

theorem underPartialKey_eq_some {objectType : String} {keys : List String}
    {entry : Sigma fun _ : Key => Option V} {attributes : List String} {value : V}
    (h : underPartialKey objectType keys entry = some (attributes, value)) :
    keys <+: attributes ∧ entry = ⟨.composite objectType attributes, some value⟩ := by
  unfold underPartialKey at h
  split at h
  · split at h
    · rename_i hkeys
      cases h
      exact ⟨hkeys.2, by rw [hkeys.1]⟩
    · cases h
  · cases h

theorem mem_partialEntries {state : WorldState V} {objectType : String} {keys : List String}
    {attributes : List String} {value : V} :
    (attributes, value) ∈ partialEntries state objectType keys ↔
      keys <+: attributes ∧ state.get (.composite objectType attributes) = some value := by
  rw [partialEntries, List.mem_filterMap, ← mem_entries_iff]
  constructor
  · rintro ⟨entry, hentry, hunder⟩
    obtain ⟨hkeys, rfl⟩ := underPartialKey_eq_some hunder
    exact ⟨hkeys, hentry⟩
  · rintro ⟨hkeys, hentry⟩
    exact ⟨_, hentry, if_pos ⟨rfl, hkeys⟩⟩

theorem nodup_partialEntries (state : WorldState V) (objectType : String)
    (keys : List String) : (partialEntries state objectType keys).Nodup := by
  refine List.Nodup.filterMap ?_ state.written.nodupKeys.nodup
  rintro entry other ⟨attributes, value⟩ hentry hother
  rw [(underPartialKey_eq_some hentry).2, (underPartialKey_eq_some hother).2]

theorem partial_perm {state : WorldState V} {objectType : String} {keys : List String}
    {values : List V}
    (h : getStateByPartialCompositeKey state objectType keys = .ok values) :
    values.Perm ((partialEntries state objectType keys).map Prod.snd) := by
  unfold getStateByPartialCompositeKey at h
  cases hkey : createCompositeKey objectType keys with
  | error message => rw [hkey] at h; cases h
  | ok key =>
      rw [hkey] at h
      cases h
      exact (List.perm_insertionSort _ _).map _

theorem exists_partial (state : WorldState V) {objectType : String} {keys : List String}
    (h : (objectType :: keys).all isKeyPart = true) :
    ∃ values, getStateByPartialCompositeKey state objectType keys = .ok values := by
  rw [getStateByPartialCompositeKey, createCompositeKey, if_pos h]
  exact ⟨_, rfl⟩

end State

end BlockchainTutorial.Fabric
