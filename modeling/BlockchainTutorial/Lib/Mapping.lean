import Mathlib.Algebra.BigOperators.Group.List.Basic
import Mathlib.Algebra.Order.BigOperators.Group.List
import Mathlib.Algebra.Order.Group.Nat
import Mathlib.Data.List.AList
import Mathlib.Data.List.Dedup

namespace BlockchainTutorial.Lib

universe u v w

/-! Mappings of a contract's storage: every key has a value, and all but finitely
many keys have the default one. -/

structure Mapping (κ : Type u) (ν : Type v) where
  written : AList (fun _ : κ => ν)

namespace Mapping

variable {κ : Type u} {ν : Type v}

instance : EmptyCollection (Mapping κ ν) := ⟨⟨∅⟩⟩

variable [DecidableEq κ] [Inhabited ν]

def get (mapping : Mapping κ ν) (key : κ) : ν :=
  (mapping.written.lookup key).getD default

def set (mapping : Mapping κ ν) (key : κ) (value : ν) : Mapping κ ν :=
  ⟨mapping.written.insert key value⟩

@[simp] theorem get_empty (key : κ) : (∅ : Mapping κ ν).get key = default := rfl

@[simp] theorem get_set_self (mapping : Mapping κ ν) (key : κ) (value : ν) :
    (mapping.set key value).get key = value := by
  simp [get, set]

theorem get_set_of_ne (mapping : Mapping κ ν) {key other : κ} (value : ν)
    (h : other ≠ key) : (mapping.set key value).get other = mapping.get other := by
  simp [get, set, AList.lookup_insert_ne h]

theorem forall_get_set {P : ν → Prop} {mapping : Mapping κ ν} (h : ∀ key, P (mapping.get key))
    {key : κ} {value : ν} (hvalue : P value) (other : κ) :
    P ((mapping.set key value).get other) := by
  by_cases heq : other = key
  · subst heq
    rwa [get_set_self]
  · rw [get_set_of_ne mapping value heq]
    exact h other

/-- Every value is replaced by its image. -/
def mapValues {μ : Type w} (f : ν → μ) (mapping : Mapping κ ν) : Mapping κ μ :=
  ⟨⟨mapping.written.entries.map (Sigma.map id fun _ => f),
    List.NodupKeys.map₂ (fun _ => f) _ mapping.written.nodupKeys⟩⟩

theorem get_mapValues {μ : Type w} [Inhabited μ] {f : ν → μ} (hdefault : f default = default)
    (mapping : Mapping κ ν) (key : κ) : (mapping.mapValues f).get key = f (mapping.get key) := by
  have hlookup : (mapping.mapValues f).written.lookup key =
      (mapping.written.lookup key).map f := List.dlookup_map₂ key
  rw [get, get, hlookup]
  cases mapping.written.lookup key with
  | none => exact hdefault.symm
  | some value => rfl

theorem countP_set (mapping : Mapping κ Bool) {key : κ} (hkey : mapping.get key = false)
    {keys : List κ} (hnodup : keys.Nodup) (hmem : key ∈ keys) :
    keys.countP (mapping.set key true).get = keys.countP mapping.get + 1 := by
  induction keys with
  | nil => cases hmem
  | cons first rest ih =>
      obtain ⟨hfirst, hnodup⟩ := List.nodup_cons.mp hnodup
      by_cases heq : key = first
      · subst heq
        have hrest : rest.countP (mapping.set key true).get = rest.countP mapping.get := by
          refine List.countP_congr ?_
          intro other hother
          rw [get_set_of_ne mapping true]
          rintro rfl
          exact hfirst hother
        rw [List.countP_cons_of_pos (get_set_self mapping key true), hrest,
          List.countP_cons_of_neg (by simp [hkey])]
      · have hrest := ih hnodup (List.mem_of_ne_of_mem heq hmem)
        rw [List.countP_cons, List.countP_cons, hrest,
          get_set_of_ne mapping true (Ne.symm heq)]
        omega

section Total

variable {M : Type w} [AddCommMonoid M] (measure : κ → ν → M)

def total (mapping : Mapping κ ν) : M :=
  (mapping.written.entries.map fun entry => measure entry.1 entry.2).sum

omit [DecidableEq κ] [Inhabited ν] in
@[simp] theorem total_empty : total measure (∅ : Mapping κ ν) = 0 := rfl

theorem sum_kerase (key : κ) (hzero : measure key default = 0)
    (entries : List (Sigma fun _ : κ => ν)) :
    ((entries.kerase key).map fun entry => measure entry.1 entry.2).sum +
        measure key ((entries.dlookup key).getD default) =
      (entries.map fun entry => measure entry.1 entry.2).sum := by
  induction entries with
  | nil => simpa using hzero
  | cons entry rest ih =>
      by_cases hkey : key = entry.1
      · subst hkey
        rw [List.kerase_cons_eq rfl, List.dlookup_cons_eq, Option.getD_some,
          List.map_cons, List.sum_cons, add_comm]
      · rw [List.kerase_cons_ne hkey, List.dlookup_cons_ne _ _ hkey, List.map_cons,
          List.sum_cons, List.map_cons, List.sum_cons, add_assoc, ih]

/-- A write changes a sum by the new value less the old one. -/
theorem total_set (mapping : Mapping κ ν) (key : κ) (value : ν)
    (hzero : measure key default = 0) :
    total measure (mapping.set key value) + measure key (mapping.get key) =
      total measure mapping + measure key value := by
  have hsum := sum_kerase measure key hzero mapping.written.entries
  have hentries : (mapping.set key value).written.entries =
      ⟨key, value⟩ :: mapping.written.entries.kerase key := rfl
  simp only [total, get, AList.lookup, hentries, List.map_cons, List.sum_cons]
  rw [add_assoc, hsum, add_comm]

theorem le_total (measure : κ → ν → Nat) (mapping : Mapping κ ν) (key : κ)
    (hzero : measure key default = 0) :
    measure key (mapping.get key) ≤ total measure mapping := by
  have hset := total_set measure mapping key default hzero
  omega

theorem get_of_mem_entries {mapping : Mapping κ ν} {key : κ} {value : ν}
    (h : ⟨key, value⟩ ∈ mapping.written.entries) : mapping.get key = value := by
  have hlookup : mapping.written.lookup key = some value := AList.mem_lookup_iff.mpr h
  rw [get, hlookup, Option.getD_some]

theorem forall_get_iff {P : ν → Prop} (hdefault : P default) (mapping : Mapping κ ν) :
    (∀ key, P (mapping.get key)) ↔ ∀ entry ∈ mapping.written.entries, P entry.2 := by
  constructor
  · intro hall entry hentry
    rw [← get_of_mem_entries hentry]
    exact hall entry.1
  · intro hall key
    unfold get
    cases hlookup : mapping.written.lookup key with
    | none => exact hdefault
    | some value => exact hall _ (AList.mem_lookup_iff.mp hlookup)

theorem total_le_total (lower upper : κ → ν → Nat) (mapping : Mapping κ ν)
    (hle : ∀ key, lower key (mapping.get key) ≤ upper key (mapping.get key)) :
    total lower mapping ≤ total upper mapping := by
  refine List.sum_le_sum ?_
  intro entry hentry
  have hget : mapping.get entry.1 = entry.2 := get_of_mem_entries hentry
  have hentry := hle entry.1
  rwa [hget] at hentry

theorem total_eq_zero (mapping : Mapping κ ν) (hzero : ∀ key, measure key default = 0)
    (hdefault : ∀ key, mapping.get key = default) : total measure mapping = 0 := by
  refine List.sum_eq_zero ?_
  intro value hmem
  obtain ⟨⟨key, found⟩, hentry, rfl⟩ := List.mem_map.mp hmem
  obtain rfl : found = default := (get_of_mem_entries hentry).symm.trans (hdefault key)
  exact hzero key

theorem total_eq_zero_iff (measure : κ → ν → Nat) (mapping : Mapping κ ν)
    (hzero : ∀ key, measure key default = 0) :
    total measure mapping = 0 ↔ ∀ key, measure key (mapping.get key) = 0 := by
  refine ⟨fun h key => ?_, fun h => List.sum_eq_zero fun value hmem => ?_⟩
  · have hle := le_total measure mapping key (hzero key)
    omega
  · obtain ⟨⟨key, found⟩, hentry, rfl⟩ := List.mem_map.mp hmem
    have hget : mapping.get key = found := get_of_mem_entries hentry
    rw [← hget]
    exact h key

/-- A sum is the sum over any list of distinct keys that has all but default values. -/
theorem total_eq_sum (keys : List κ) (hnodup : keys.Nodup) (mapping : Mapping κ ν)
    (hzero : ∀ key, measure key default = 0)
    (hsupport : ∀ key, key ∉ keys → mapping.get key = default) :
    total measure mapping = (keys.map fun key => measure key (mapping.get key)).sum := by
  induction keys generalizing mapping with
  | nil => exact total_eq_zero measure mapping hzero fun key => hsupport key (by simp)
  | cons key keys ih =>
      obtain ⟨hkey, hnodup⟩ := List.nodup_cons.mp hnodup
      have hset := total_set measure mapping key default (hzero key)
      have hrest := ih hnodup (mapping.set key default) ?_
      · have hsame : ∀ other ∈ keys, (mapping.set key default).get other =
            mapping.get other := by
          intro other hmem
          refine get_set_of_ne mapping default ?_
          rintro rfl
          exact hkey hmem
        rw [hrest, hzero key, add_zero] at hset
        rw [← hset, List.map_cons, List.sum_cons, add_comm]
        congr 2
        exact List.map_congr_left fun other hmem => by rw [hsame other hmem]
      · intro other hother
        by_cases heq : other = key
        · subst heq
          exact get_set_self _ _ _
        · rw [get_set_of_ne mapping default heq]
          exact hsupport other (by simp [heq, hother])

theorem get_of_not_mem_keys {mapping : Mapping κ ν} {key : κ}
    (h : key ∉ mapping.written.keys) : mapping.get key = default := by
  have hlookup : mapping.written.lookup key = none := AList.lookup_eq_none.mpr h
  rw [get, hlookup, Option.getD_none]

theorem total_congr {mapping other : Mapping κ ν} (hzero : ∀ key, measure key default = 0)
    (h : ∀ key, mapping.get key = other.get key) :
    total measure mapping = total measure other := by
  have hnodup := List.nodup_dedup (mapping.written.keys ++ other.written.keys)
  rw [total_eq_sum measure _ hnodup mapping hzero fun key hkey => ?_,
    total_eq_sum measure _ hnodup other hzero fun key hkey => ?_]
  · exact congrArg List.sum (List.map_congr_left fun key _ => by rw [h key])
  · rw [List.mem_dedup, List.mem_append, not_or] at hkey
    exact get_of_not_mem_keys hkey.2
  · rw [List.mem_dedup, List.mem_append, not_or] at hkey
    exact get_of_not_mem_keys hkey.1

/-- Two mappings that agree outside of some keys differ by what they have there. -/
theorem total_of_agree {keys : List κ} (hnodup : keys.Nodup) {mapping other : Mapping κ ν}
    (hzero : ∀ key, measure key default = 0)
    (h : ∀ key, key ∉ keys → mapping.get key = other.get key) :
    total measure mapping + (keys.map fun key => measure key (other.get key)).sum =
      total measure other + (keys.map fun key => measure key (mapping.get key)).sum := by
  induction keys generalizing mapping with
  | nil => simpa using total_congr measure hzero fun key => h key List.not_mem_nil
  | cons key keys ih =>
      obtain ⟨hkey, hnodup⟩ := List.nodup_cons.mp hnodup
      have hset := total_set measure mapping key (other.get key) (hzero key)
      have hrest := @ih hnodup (mapping.set key (other.get key)) ?_
      · have hsame : (keys.map fun k => measure k ((mapping.set key (other.get key)).get k)) =
            keys.map fun k => measure k (mapping.get k) := by
          refine List.map_congr_left fun k hk => ?_
          rw [get_set_of_ne mapping _ (by rintro rfl; exact hkey hk)]
        rw [hsame] at hrest
        rw [List.map_cons, List.sum_cons, List.map_cons, List.sum_cons, ← add_assoc, ← hset,
          add_right_comm, hrest, add_assoc, add_comm (List.sum _)]
      · intro k hk
        by_cases heq : k = key
        · subst heq
          exact get_set_self _ _ _
        · rw [get_set_of_ne mapping _ heq]
          exact h k (by simp [heq, hk])

end Total

/-! The keys whose values have a property that the default value does not have. -/

section Holders

variable (p : ν → Bool)

def holders (mapping : Mapping κ ν) : List κ :=
  mapping.written.keys.filter fun key => p (mapping.get key)

variable {p}

theorem nodup_holders (mapping : Mapping κ ν) : (mapping.holders p).Nodup :=
  List.Nodup.filter _ mapping.written.nodupKeys

theorem mem_holders (hdefault : p default = false) {mapping : Mapping κ ν} {key : κ} :
    key ∈ mapping.holders p ↔ p (mapping.get key) = true := by
  rw [holders, List.mem_filter]
  refine ⟨fun h => h.2, fun h => ⟨?_, h⟩⟩
  by_contra hkey
  rw [get_of_not_mem_keys hkey, hdefault] at h
  cases h

theorem length_holders (mapping : Mapping κ ν) (hdefault : p default = false) :
    (mapping.holders p).length =
      total (fun _ value => if p value then 1 else 0) mapping := by
  rw [total_eq_sum _ mapping.written.keys mapping.written.nodupKeys mapping
    (by simp [hdefault]) fun key hkey => get_of_not_mem_keys hkey, holders]
  induction mapping.written.keys with
  | nil => rfl
  | cons key keys ih =>
      rw [List.filter_cons, List.map_cons, List.sum_cons, ← ih]
      split <;> simp [Nat.add_comm]

/-- A write changes the number of such keys by the new value less the old one. -/
theorem length_holders_set (mapping : Mapping κ ν) (key : κ) (value : ν)
    (hdefault : p default = false) :
    ((mapping.set key value).holders p).length + (if p (mapping.get key) then 1 else 0) =
      (mapping.holders p).length + if p value then 1 else 0 := by
  rw [length_holders _ hdefault, length_holders _ hdefault]
  exact total_set (fun _ value => if p value then 1 else 0) mapping key value
    (by simp [hdefault])

end Holders

end Mapping

/-! A sum over a list is the sum of the sums over the entries of each key. -/

theorem sum_filter_key {α : Type u} {κ : Type v} {M : Type w} [AddCommGroup M]
    [DecidableEq κ] {keys : List κ} (hkeys : keys.Nodup) (key : α → κ) (g : α → M)
    (l : List α) (hmem : ∀ a ∈ l, key a ∈ keys) :
    (keys.map fun k => ((l.filter fun a => key a = k).map g).sum).sum = (l.map g).sum := by
  induction l with
  | nil => simp
  | cons a l ih =>
      have hone : (keys.map fun k => if key a = k then g a else 0).sum = g a := by
        have hcount := List.count_eq_one_of_mem hkeys (hmem a List.mem_cons_self)
        have hsum := List.sum_map_ite_eq keys (fun _ => g a) (fun _ => (0 : M)) (key a)
        rw [hcount, one_nsmul] at hsum
        simpa [eq_comm] using hsum
      have hsplit : ∀ k, (((a :: l).filter fun a => key a = k).map g).sum =
          (if key a = k then g a else 0) + ((l.filter fun a => key a = k).map g).sum := by
        intro k
        rw [List.filter_cons]
        by_cases hk : key a = k <;> simp [hk]
      simp only [hsplit, List.sum_map_add]
      rw [hone, ih fun b hb => hmem b (List.mem_cons_of_mem _ hb), List.map_cons,
        List.sum_cons]

end BlockchainTutorial.Lib
