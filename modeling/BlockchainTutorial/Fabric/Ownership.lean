import Mathlib.Algebra.Ring.Nat
import BlockchainTutorial.Fabric.AssetsExchange

namespace BlockchainTutorial.Fabric.AssetsExchange

/-! How often an asset is in the lists of the users. -/

def listed (assetId : String) (_ : Key) : Option Record → Nat
  | some (.user user) => user.assets.count assetId
  | _ => 0

/-- The occurrences in the lists of all users together. -/
def held (ledger : Ledger) (assetId : String) : Nat :=
  ledger.total (listed assetId)

structure Owned (ledger : Ledger) : Prop where
  once : ∀ assetId, (ledger.get (constructAssetKey assetId)).isSome → held ledger assetId = 1
  recorded : ∀ key user, ledger.get key = some (.user user) →
    ∀ assetId ∈ user.assets, (ledger.get (constructAssetKey assetId)).isSome

/-- Each asset with a record is held once, and no other one is held. -/
def HeldRight (ledger : Ledger) : Prop :=
  ∀ assetId, held ledger assetId =
    if (ledger.get (constructAssetKey assetId)).isSome then 1 else 0

theorem count_insert (user : User) (assetId other : String) :
    (user.insert assetId).assets.count other =
      user.assets.count other + if assetId = other then 1 else 0 := by
  simp [User.insert, List.count_append, List.count_singleton]

theorem count_remove (user : User) (assetId other : String) :
    (user.remove assetId).assets.count other =
      if assetId = other then 0 else user.assets.count other := by
  by_cases heq : assetId = other
  · subst heq
    rw [if_pos rfl]
    exact List.count_eq_zero.mpr (by simp [User.remove])
  · rw [if_neg heq]
    exact List.count_filter (by simpa using Ne.symm heq)

section Ledger

variable {ledger ledger' : Ledger}

theorem held_set (ledger : Ledger) (key : Key) (value : Option Record) (assetId : String) :
    held (ledger.set key value) assetId + listed assetId key (ledger.get key) =
      held ledger assetId + listed assetId key value :=
  Lib.Mapping.total_set (listed assetId) ledger key value rfl

theorem owned_iff : Owned ledger ↔ HeldRight ledger := by
  constructor
  · intro h assetId
    split
    · rename_i hasset
      exact h.once assetId hasset
    · rename_i hasset
      refine (Lib.Mapping.total_eq_zero_iff (listed assetId) ledger fun _ => rfl).mpr ?_
      intro key
      cases hget : ledger.get key with
      | none => rfl
      | some record =>
          cases record with
          | user value =>
              refine List.count_eq_zero.mpr fun hmem => hasset ?_
              exact h.recorded key value hget assetId hmem
          | asset value => rfl
          | history value => rfl
  · intro h
    refine ⟨fun assetId hasset => by rw [h, if_pos hasset], ?_⟩
    intro key user hget assetId hmem
    have hle := Lib.Mapping.le_total (listed assetId) ledger key rfl
    have hcount : 0 < user.assets.count assetId := List.count_pos_iff.mpr hmem
    have hheld := h assetId
    rw [hget] at hle
    simp only [listed] at hle
    rw [held] at hheld
    by_contra hasset
    rw [if_neg hasset] at hheld
    omega

/-! Registration. -/

theorem heldRight_registered (h : HeldRight ledger) {id : String}
    (hnew : ledger.get (constructUserKey id) = none) (name : String) :
    HeldRight (registered ledger name id) := by
  intro assetId
  have hset := held_set ledger (constructUserKey id) (some (.user ⟨name, id, []⟩)) assetId
  rw [hnew] at hset
  rw [registered, Lib.Mapping.get_set_of_ne _ _ (constructUserKey_ne_constructAssetKey _ _).symm,
    ← h assetId]
  simpa [listed] using hset

/-! Destruction. -/

theorem held_dels (h : Keyed ledger) (assets : List String) (assetId : String) :
    held (commit ledger (assets.map fun assetid => (constructAssetKey assetid, none))) assetId =
      held ledger assetId := by
  induction assets generalizing ledger with
  | nil => rfl
  | cons asset assets ih =>
      have hset := held_set ledger (constructAssetKey asset) none assetId
      have hold : listed assetId (constructAssetKey asset)
          (ledger.get (constructAssetKey asset)) = 0 := by
        cases hget : ledger.get (constructAssetKey asset) with
        | none => rfl
        | some record =>
            obtain ⟨value, rfl⟩ := h.isAsset hget
            rfl
      rw [List.map_cons, commit_cons, ih (h.del _)]
      rw [hold] at hset
      exact hset

theorem heldRight_destroyed (h : HeldRight ledger) (hkeyed : Keyed ledger) {id : String}
    {user : User} (huser : ledger.get (constructUserKey id) = some (.user user)) :
    HeldRight (destroyed ledger id user.assets) := by
  intro assetId
  have hset := held_set ledger (constructUserKey id) none assetId
  have hright := h assetId
  rw [huser] at hset
  simp only [listed, Nat.add_zero] at hset
  rw [destroyed, held_dels (hkeyed.del _), get_dels,
    Lib.Mapping.get_set_of_ne _ _ (constructUserKey_ne_constructAssetKey _ _).symm]
  by_cases hmem : assetId ∈ user.assets
  · have hcount := List.count_pos_iff.mpr hmem
    rw [if_pos hmem]
    split at hright <;> simp <;> omega
  · rw [if_neg hmem, ← hright]
    rw [List.count_eq_zero.mpr hmem] at hset
    exact hset

/-! Enrollment. -/

theorem held_history (h : Keyed ledger) (history : AssetHistory) (assetId : String) :
    held (ledger.set (historyKey history) (some (.history history))) assetId =
      held ledger assetId := by
  have hset := held_set ledger (historyKey history) (some (.history history)) assetId
  have hold : listed assetId (historyKey history) (ledger.get (historyKey history)) = 0 := by
    cases hget : ledger.get (historyKey history) with
    | none => rfl
    | some record =>
        cases record with
        | user value => cases h _ _ hget
        | asset value => rfl
        | history value => rfl
  rw [hold] at hset
  exact hset

theorem held_asset {asset : Asset}
    (hnew : ledger.get (constructAssetKey asset.id) = none) (assetId : String) :
    held (ledger.set (constructAssetKey asset.id) (some (.asset asset))) assetId =
      held ledger assetId := by
  have hset := held_set ledger (constructAssetKey asset.id) (some (.asset asset)) assetId
  rw [hnew] at hset
  exact hset

theorem held_user {id : String} {user : User}
    (huser : ledger.get (constructUserKey id) = some (.user user)) (written : User)
    (assetId : String) :
    held (ledger.set (constructUserKey id) (some (.user written))) assetId +
        user.assets.count assetId =
      held ledger assetId + written.assets.count assetId := by
  have hset := held_set ledger (constructUserKey id) (some (.user written)) assetId
  rw [huser] at hset
  exact hset

theorem heldRight_enrolled (h : HeldRight ledger) (hkeyed : Keyed ledger) {asset : Asset}
    {user : User} (huser : ledger.get (constructUserKey user.id) = some (.user user))
    (hnew : ledger.get (constructAssetKey asset.id) = none) :
    HeldRight (enrolled ledger asset user user.id) := by
  intro assetId
  have hkeyed' : Keyed ((ledger.set (constructAssetKey asset.id) (some (.asset asset))).set
      (constructUserKey user.id) (some (.user (user.insert asset.id)))) := by
    refine (hkeyed.put _ ?_).put _ ?_ <;> rfl
  have huser' : (ledger.set (constructAssetKey asset.id) (some (.asset asset))).get
      (constructUserKey user.id) = some (.user user) := by
    rw [Lib.Mapping.get_set_of_ne _ _ (constructUserKey_ne_constructAssetKey _ _), huser]
  have hset := held_user huser' (user.insert asset.id) assetId
  have hright := h assetId
  rw [held_asset hnew, count_insert] at hset
  rw [enrolled, held_history hkeyed', get_history_asset, get_user_asset]
  by_cases heq : asset.id = assetId
  · subst heq
    rw [hnew] at hright
    simp only [Option.isSome_none, Bool.false_eq_true, if_false] at hright
    rw [if_pos rfl] at hset
    rw [Lib.Mapping.get_set_self, Option.isSome_some, if_pos rfl]
    omega
  · rw [Lib.Mapping.get_set_of_ne _ _ fun hkey => heq (constructAssetKey_inj.mp hkey).symm,
      ← hright]
    rw [if_neg heq] at hset
    omega

/-! Exchange. -/

/-- The list of the new owner is written after that of the old one. -/
theorem held_exchanged (hkeyed : Keyed ledger) {origin current : User}
    (horigin : ledger.get (constructUserKey origin.id) = some (.user origin))
    (hcurrent : ledger.get (constructUserKey current.id) = some (.user current))
    (assetId other : String) :
    held (exchanged ledger origin current origin.id assetId current.id) other +
        (if origin.id ≠ current.id ∧ assetId = other then origin.assets.count assetId else 0) =
      held ledger other + if assetId = other then 1 else 0 := by
  have hkeyed' : Keyed ((ledger.set (constructUserKey origin.id)
      (some (.user (origin.remove assetId)))).set
      (constructUserKey current.id) (some (.user (current.insert assetId)))) := by
    refine (hkeyed.put _ ?_).put _ ?_ <;> rfl
  have hfirst := held_user horigin (origin.remove assetId) other
  rw [exchanged, held_history hkeyed']
  by_cases howners : origin.id = current.id
  · obtain rfl : origin = current := by
      rw [howners, hcurrent] at horigin
      simpa using horigin.symm
    have hread : (ledger.set (constructUserKey origin.id)
        (some (.user (origin.remove assetId)))).get (constructUserKey origin.id) =
          some (.user (origin.remove assetId)) := Lib.Mapping.get_set_self _ _ _
    have hsecond := held_user hread (origin.insert assetId) other
    rw [count_insert] at hsecond
    rw [if_neg fun h => h.1 rfl]
    omega
  · have hread : (ledger.set (constructUserKey origin.id)
        (some (.user (origin.remove assetId)))).get (constructUserKey current.id) =
          some (.user current) := by
      rw [Lib.Mapping.get_set_of_ne _ _ fun hkey => howners (constructUserKey_inj.mp hkey).symm,
        hcurrent]
    have hsecond := held_user hread (current.insert assetId) other
    rw [count_insert] at hsecond
    rw [count_remove] at hfirst
    by_cases heq : assetId = other
    · subst heq
      rw [if_pos rfl] at hfirst
      rw [if_pos ⟨howners, rfl⟩]
      omega
    · rw [if_neg heq] at hfirst
      rw [if_neg fun h => heq h.2]
      omega

/-- An exchange keeps every asset held once, unless the new owner is the old one. -/
theorem heldRight_exchanged_iff (h : HeldRight ledger) (hkeyed : Keyed ledger)
    {origin current : User}
    (horigin : ledger.get (constructUserKey origin.id) = some (.user origin))
    (hcurrent : ledger.get (constructUserKey current.id) = some (.user current))
    {assetId : String} (hasset : (ledger.get (constructAssetKey assetId)).isSome)
    (howned : assetId ∈ origin.assets) :
    HeldRight (exchanged ledger origin current origin.id assetId current.id) ↔
      origin.id ≠ current.id := by
  have hheld := held_exchanged hkeyed horigin hcurrent assetId
  constructor
  · intro hright howners
    have hone := hheld assetId
    rw [if_neg fun h => h.1 howners, if_pos rfl, hright assetId, get_exchanged_asset,
      h assetId, if_pos hasset] at hone
    omega
  · intro howners other
    have hright := h other
    have hother := hheld other
    rw [get_exchanged_asset, ← hright]
    by_cases heq : assetId = other
    · subst heq
      have hpos := List.count_pos_iff.mpr howned
      have hle := Lib.Mapping.le_total (listed assetId) ledger (constructUserKey origin.id) rfl
      rw [horigin] at hle
      simp only [listed] at hle
      rw [if_pos hasset, held] at hright
      rw [if_pos ⟨howners, rfl⟩, if_pos rfl] at hother
      rw [held] at hother ⊢
      omega
    · rw [if_neg fun h => heq h.2, if_neg heq] at hother
      exact hother

/-- The transaction is no exchange of an owner with itself. -/
def ToAnother (_ : Ledger) (tx : Transaction) : Prop :=
  ∀ ownerId assetId, tx ≠ ⟨.assetExchange, [ownerId, assetId, ownerId]⟩

theorem heldRight_step_iff (h : HeldRight ledger) (hkeyed : Keyed ledger) {tx : Transaction}
    (hstep : step ledger tx = some ledger') : HeldRight ledger' ↔ ToAnother ledger tx := by
  rcases step_cases hstep with ⟨name, id, rfl, hnew, rfl⟩ | ⟨id, userBytes, rfl, huser, rfl⟩ |
    ⟨assetName, assetId, metadata, ownerId, userBytes, rfl, huser, hnew, _, rfl⟩ |
    ⟨ownerId, assetId, currentOwnerId, originBytes, currentBytes, rfl, horigin, hcurrent,
      hasset, howned, rfl⟩
  · exact ⟨fun _ _ _ => by simp, fun _ => heldRight_registered h hnew name⟩
  · obtain ⟨user, rfl, _⟩ := hkeyed.isUser huser
    exact ⟨fun _ _ _ => by simp, fun _ => heldRight_destroyed h hkeyed huser⟩
  · obtain ⟨user, rfl, rfl⟩ := hkeyed.isUser huser
    refine ⟨fun _ _ _ => by simp, fun _ => ?_⟩
    exact @heldRight_enrolled ledger h hkeyed ⟨assetName, assetId, metadata⟩ user huser hnew
  · obtain ⟨origin, rfl, rfl⟩ := hkeyed.isUser horigin
    obtain ⟨current, rfl, rfl⟩ := hkeyed.isUser hcurrent
    refine (heldRight_exchanged_iff h hkeyed horigin hcurrent hasset howned).trans ?_
    constructor
    · intro howners ownerId assetId heq
      simp only [Transaction.mk.injEq, List.cons.injEq] at heq
      exact howners (heq.2.1.trans heq.2.2.2.1.symm)
    · intro hother howners
      exact hother origin.id assetId (by rw [← howners])

end Ledger

section Runs

variable (run : Lib.Run (∅ : Ledger) step)

theorem owned_run_iff :
    (∀ k, k ≤ run.length → Owned (run.state k)) ↔ run.AllSteps ToAnother := by
  constructor
  · intro howned k hk
    exact (heldRight_step_iff (owned_iff.mp (howned k (by omega)))
      (keyed_run run k (by omega)) (run.steps k hk)).mp (owned_iff.mp (howned (k + 1) hk))
  · intro hother
    refine run.induct ?_ ?_
    · rw [run.starts, owned_iff]
      exact fun _ => rfl
    · intro k hk ih
      exact owned_iff.mpr ((heldRight_step_iff (owned_iff.mp ih) (keyed_run run k (by omega))
        (run.steps k hk)).mpr (hother k hk))

end Runs

/-- An owner that gives an asset to itself has it twice. -/
theorem owned_twice :
    ∃ run : Lib.Run (∅ : Ledger) step, ¬ Owned (run.state run.length) := by
  have hexec : (Lib.exec step (∅ : Ledger) [⟨.userRegister, ["Alice", "a"]⟩,
      ⟨.assetEnroll, ["house", "h", "", "a"]⟩, ⟨.assetExchange, ["a", "h", "a"]⟩]).map
      (fun ledger => (held ledger "h", (ledger.get (constructAssetKey "h")).isSome)) =
        some (2, true) := by decide +kernel
  obtain ⟨run, _, hread⟩ := Lib.Run.exists_of_exec hexec
  obtain ⟨htwice, hasset⟩ := Prod.mk.inj hread
  refine ⟨run, fun howned => ?_⟩
  have hone := howned.once "h" hasset
  rw [htwice] at hone
  cases hone

end BlockchainTutorial.Fabric.AssetsExchange
