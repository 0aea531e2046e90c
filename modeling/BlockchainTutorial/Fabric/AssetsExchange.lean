import BlockchainTutorial.Fabric.Stub
import BlockchainTutorial.Lib.Run

namespace BlockchainTutorial.Fabric.AssetsExchange

/-! `assetsExchange.go`. What is stored is the record that the JSON text stands for. -/

def originOwner : String := "originOwnerPlaceholder"

structure User where
  name : String
  id : String
  assets : List String

def User.insert (user : User) (assetId : String) : User :=
  { user with assets := user.assets ++ [assetId] }

/-- The loop leaves out every occurrence. -/
def User.remove (user : User) (assetId : String) : User :=
  { user with assets := user.assets.filter (· ≠ assetId) }

structure Asset where
  name : String
  id : String
  metadata : String

structure AssetHistory where
  assetId : String
  originOwnerId : String
  currentOwnerId : String
  deriving DecidableEq

inductive Record where
  | user (value : User)
  | asset (value : Asset)
  | history (value : AssetHistory)

/-- Fields that the text does not have stay empty, and fields that the structure does not
have are left out. -/
def Record.toUser : Record → User
  | .user value => value
  | .asset value => ⟨value.name, value.id, []⟩
  | .history _ => ⟨"", "", []⟩

def Record.toHistory : Record → AssetHistory
  | .history value => value
  | _ => ⟨"", "", ""⟩

abbrev Ledger := WorldState Record

def constructUserKey (userId : String) : Key :=
  .simple ("user_" ++ userId)

def constructAssetKey (assetId : String) : Key :=
  .simple ("asset_" ++ assetId)

/-- The key of a history record, or the message of the call that fails. -/
def createKey (attributes : List String) : Except String Key :=
  (createCompositeKey "history" attributes).mapError ("create key error: " ++ ·)

section Functions

variable (ledger : Ledger)

def userRegister : List String → Except String (List (Write Record))
  | [name, id] =>
      if name = "" ∨ id = "" then .error "invalid args"
      else if (ledger.get (constructUserKey id)).isSome then .error "user already exist"
      else .ok [(constructUserKey id, some (.user ⟨name, id, []⟩))]
  | _ => .error "not enough args"

def userDestroy : List String → Except String (List (Write Record))
  | [id] =>
      if id = "" then .error "invalid args"
      else match ledger.get (constructUserKey id) with
        | none => .error "user not found"
        | some userBytes =>
            .ok ((constructUserKey id, none) ::
              userBytes.toUser.assets.map fun assetid => (constructAssetKey assetid, none))
  | _ => .error "not enough args"

def assetEnroll : List String → Except String (List (Write Record))
  | [assetName, assetId, metadata, ownerId] =>
      if assetName = "" ∨ assetId = "" ∨ ownerId = "" then .error "invalid args"
      else match ledger.get (constructUserKey ownerId) with
        | none => .error "user not found"
        | some userBytes =>
            if (ledger.get (constructAssetKey assetId)).isSome then .error "asset already exist"
            else do
              let user := userBytes.toUser
              let historyKey ← createKey [assetId, originOwner, ownerId]
              .ok [(constructAssetKey assetId, some (.asset ⟨assetName, assetId, metadata⟩)),
                (constructUserKey user.id, some (.user (user.insert assetId))),
                (historyKey, some (.history ⟨assetId, originOwner, ownerId⟩))]
  | _ => .error "not enough args"

def assetExchange : List String → Except String (List (Write Record))
  | [ownerId, assetId, currentOwnerId] =>
      if ownerId = "" ∨ assetId = "" ∨ currentOwnerId = "" then .error "invalid args"
      else match ledger.get (constructUserKey ownerId),
          ledger.get (constructUserKey currentOwnerId) with
        | some originOwnerBytes, some currentOwnerBytes =>
            if (ledger.get (constructAssetKey assetId)).isNone then .error "asset not found"
            else do
              let origin := originOwnerBytes.toUser
              if assetId ∉ origin.assets then .error "asset owner not match"
              else
                let current := currentOwnerBytes.toUser
                let historyKey ← createKey [assetId, ownerId, currentOwnerId]
                .ok [(constructUserKey ownerId, some (.user (origin.remove assetId))),
                  (constructUserKey currentOwnerId, some (.user (current.insert assetId))),
                  (historyKey, some (.history ⟨assetId, ownerId, currentOwnerId⟩))]
        | _, _ => .error "user not found"
  | _ => .error "not enough args"

/-- The records of an asset under the keys of a query. -/
def histories (queryType assetId : String) : Except String (List AssetHistory) := do
  let keys := if queryType = "enroll" then [assetId, originOwner] else [assetId]
  let result ← (getStateByPartialCompositeKey ledger "history" keys).mapError
    ("query history error: " ++ ·)
  let histories := result.map Record.toHistory
  .ok (if queryType = "exchange" then
      histories.filter fun history => history.originOwnerId ≠ originOwner
    else histories)

/-- The query for a type, once the arguments are counted. -/
def queryHistory (assetId queryType : String) : Except String (List AssetHistory) :=
  if assetId = "" then .error "invalid args"
  else if queryType ≠ "all" ∧ queryType ≠ "enroll" ∧ queryType ≠ "exchange" then
    .error ("queryType unknown " ++ queryType)
  else if (ledger.get (constructAssetKey assetId)).isNone then .error "asset not found"
  else histories ledger queryType assetId

def queryAssetHistory : List String → Except String (List AssetHistory)
  | [assetId] => queryHistory ledger assetId "all"
  | [assetId, queryType] => queryHistory ledger assetId queryType
  | _ => .error "not enough args"

end Functions

/-- The functions that write. -/
inductive Function where
  | userRegister
  | userDestroy
  | assetEnroll
  | assetExchange
  deriving DecidableEq, Inhabited

structure Transaction where
  function : Function
  args : List String
  deriving DecidableEq, Inhabited

def invoke (ledger : Ledger) (tx : Transaction) : Except String (List (Write Record)) :=
  match tx.function with
  | .userRegister => userRegister ledger tx.args
  | .userDestroy => userDestroy ledger tx.args
  | .assetEnroll => assetEnroll ledger tx.args
  | .assetExchange => assetExchange ledger tx.args

/-- A transaction that succeeds. -/
def step (ledger : Ledger) (tx : Transaction) : Option Ledger :=
  match invoke ledger tx with
  | .ok writes => some (commit ledger writes)
  | .error _ => none

/-! Keys. -/

def historyKey (history : AssetHistory) : Key :=
  .composite "history" [history.assetId, history.originOwnerId, history.currentOwnerId]

/-- The key under which a record is kept. -/
def Record.key : Record → Key
  | .user value => constructUserKey value.id
  | .asset value => constructAssetKey value.id
  | .history value => historyKey value

theorem constructUserKey_inj {id other : String} :
    constructUserKey id = constructUserKey other ↔ id = other := by
  simp [constructUserKey]

theorem constructAssetKey_inj {id other : String} :
    constructAssetKey id = constructAssetKey other ↔ id = other := by
  simp [constructAssetKey]

theorem constructUserKey_ne_constructAssetKey (userId assetId : String) :
    constructUserKey userId ≠ constructAssetKey assetId := by
  intro h
  have htext := congrArg String.toList (Key.simple.inj h)
  simp at htext

theorem historyKey_inj {history other : AssetHistory} :
    historyKey history = historyKey other ↔ history = other := by
  cases history
  cases other
  simp [historyKey]

/-! What a transaction does. -/

section Steps

variable {ledger ledger' : Ledger}

def registered (ledger : Ledger) (name id : String) : Ledger :=
  ledger.set (constructUserKey id) (some (.user ⟨name, id, []⟩))

def destroyed (ledger : Ledger) (id : String) (assets : List String) : Ledger :=
  commit (ledger.set (constructUserKey id) none)
    (assets.map fun assetid => (constructAssetKey assetid, none))

def enrolled (ledger : Ledger) (asset : Asset) (user : User) (ownerId : String) : Ledger :=
  ((ledger.set (constructAssetKey asset.id) (some (.asset asset))).set
      (constructUserKey user.id) (some (.user (user.insert asset.id)))).set
    (historyKey ⟨asset.id, originOwner, ownerId⟩)
      (some (.history ⟨asset.id, originOwner, ownerId⟩))

def exchanged (ledger : Ledger) (origin current : User)
    (ownerId assetId currentOwnerId : String) : Ledger :=
  ((ledger.set (constructUserKey ownerId) (some (.user (origin.remove assetId)))).set
      (constructUserKey currentOwnerId) (some (.user (current.insert assetId)))).set
    (historyKey ⟨assetId, ownerId, currentOwnerId⟩)
      (some (.history ⟨assetId, ownerId, currentOwnerId⟩))

theorem userRegister_eq_ok {args : List String} {writes : List (Write Record)}
    (h : userRegister ledger args = .ok writes) :
    ∃ name id, args = [name, id] ∧ ledger.get (constructUserKey id) = none ∧
      commit ledger writes = registered ledger name id := by
  unfold userRegister at h
  split at h
  · split at h
    · cases h
    · split at h
      · cases h
      · rename_i name id _ hnew
        cases h
        exact ⟨name, id, rfl, by simpa using hnew, rfl⟩
  · cases h

theorem userDestroy_eq_ok {args : List String} {writes : List (Write Record)}
    (h : userDestroy ledger args = .ok writes) :
    ∃ id userBytes, args = [id] ∧ ledger.get (constructUserKey id) = some userBytes ∧
      commit ledger writes = destroyed ledger id userBytes.toUser.assets := by
  unfold userDestroy at h
  split at h
  · split at h
    · cases h
    · split at h
      · cases h
      · rename_i id _ _ userBytes huser
        cases h
        exact ⟨id, userBytes, rfl, huser, rfl⟩
  · cases h

theorem assetEnroll_eq_ok {args : List String} {writes : List (Write Record)}
    (h : assetEnroll ledger args = .ok writes) :
    ∃ assetName assetId metadata ownerId userBytes,
      args = [assetName, assetId, metadata, ownerId] ∧
      ledger.get (constructUserKey ownerId) = some userBytes ∧
      ledger.get (constructAssetKey assetId) = none ∧
      (assetId ≠ "" ∧ isKeyPart assetId = true) ∧
      commit ledger writes =
        enrolled ledger ⟨assetName, assetId, metadata⟩ userBytes.toUser ownerId := by
  unfold assetEnroll at h
  split at h
  · split at h
    · cases h
    · split at h
      · cases h
      · split at h
        · cases h
        · rename_i assetName assetId metadata ownerId hargs _ userBytes huser hnew
          cases hkey : createCompositeKey "history" [assetId, originOwner, ownerId] with
          | error message => rw [createKey, hkey] at h; cases h
          | ok key =>
              rw [createKey, hkey] at h
              have hpart := isKeyPart_of_ok hkey List.mem_cons_self
              obtain rfl := createCompositeKey_eq_ok hkey
              cases h
              exact ⟨assetName, assetId, metadata, ownerId, userBytes, rfl, huser,
                by simpa using hnew, ⟨fun hid => hargs (.inr (.inl hid)), hpart⟩, rfl⟩
  · cases h

theorem assetExchange_eq_ok {args : List String} {writes : List (Write Record)}
    (h : assetExchange ledger args = .ok writes) :
    ∃ ownerId assetId currentOwnerId originOwnerBytes currentOwnerBytes,
      args = [ownerId, assetId, currentOwnerId] ∧
      ledger.get (constructUserKey ownerId) = some originOwnerBytes ∧
      ledger.get (constructUserKey currentOwnerId) = some currentOwnerBytes ∧
      (ledger.get (constructAssetKey assetId)).isSome ∧
      assetId ∈ originOwnerBytes.toUser.assets ∧
      commit ledger writes = exchanged ledger originOwnerBytes.toUser
        currentOwnerBytes.toUser ownerId assetId currentOwnerId := by
  unfold assetExchange at h
  split at h
  · split at h
    · cases h
    · split at h
      · rename_i ownerId assetId currentOwnerId _ _ _ originBytes currentBytes horigin hcurrent
        split at h
        · cases h
        · rename_i hasset
          dsimp only at h
          split at h
          · cases h
          · rename_i howned
            cases hkey : createCompositeKey "history" [assetId, ownerId, currentOwnerId] with
            | error message => rw [createKey, hkey] at h; cases h
            | ok key =>
                rw [createKey, hkey] at h
                obtain rfl := createCompositeKey_eq_ok hkey
                cases h
                exact ⟨ownerId, assetId, currentOwnerId, originBytes, currentBytes, rfl,
                  horigin, hcurrent, by simpa [Option.isSome_iff_ne_none] using hasset,
                  by simpa using howned, rfl⟩
      · cases h
  · cases h

/-- The four things that a transaction does. -/
theorem step_cases {tx : Transaction} (h : step ledger tx = some ledger') :
    (∃ name id, tx = ⟨.userRegister, [name, id]⟩ ∧
      ledger.get (constructUserKey id) = none ∧ ledger' = registered ledger name id) ∨
    (∃ id userBytes, tx = ⟨.userDestroy, [id]⟩ ∧
      ledger.get (constructUserKey id) = some userBytes ∧
      ledger' = destroyed ledger id userBytes.toUser.assets) ∨
    (∃ assetName assetId metadata ownerId userBytes,
      tx = ⟨.assetEnroll, [assetName, assetId, metadata, ownerId]⟩ ∧
      ledger.get (constructUserKey ownerId) = some userBytes ∧
      ledger.get (constructAssetKey assetId) = none ∧
      (assetId ≠ "" ∧ isKeyPart assetId = true) ∧
      ledger' = enrolled ledger ⟨assetName, assetId, metadata⟩ userBytes.toUser ownerId) ∨
    (∃ ownerId assetId currentOwnerId originOwnerBytes currentOwnerBytes,
      tx = ⟨.assetExchange, [ownerId, assetId, currentOwnerId]⟩ ∧
      ledger.get (constructUserKey ownerId) = some originOwnerBytes ∧
      ledger.get (constructUserKey currentOwnerId) = some currentOwnerBytes ∧
      (ledger.get (constructAssetKey assetId)).isSome ∧
      assetId ∈ originOwnerBytes.toUser.assets ∧
      ledger' = exchanged ledger originOwnerBytes.toUser currentOwnerBytes.toUser ownerId
        assetId currentOwnerId) := by
  obtain ⟨function, args⟩ := tx
  unfold step at h
  split at h
  · rename_i writes hinvoke
    cases h
    cases function with
    | userRegister =>
        obtain ⟨name, id, rfl, hnew, heq⟩ := userRegister_eq_ok hinvoke
        exact .inl ⟨name, id, rfl, hnew, heq⟩
    | userDestroy =>
        obtain ⟨id, userBytes, rfl, huser, heq⟩ := userDestroy_eq_ok hinvoke
        exact .inr (.inl ⟨id, userBytes, rfl, huser, heq⟩)
    | assetEnroll =>
        obtain ⟨assetName, assetId, metadata, ownerId, userBytes, rfl, huser, hnew, hid, heq⟩ :=
          assetEnroll_eq_ok hinvoke
        exact .inr (.inr (.inl
          ⟨assetName, assetId, metadata, ownerId, userBytes, rfl, huser, hnew, hid, heq⟩))
    | assetExchange =>
        obtain ⟨ownerId, assetId, currentOwnerId, originBytes, currentBytes, rfl, horigin,
          hcurrent, hasset, howned, heq⟩ := assetExchange_eq_ok hinvoke
        exact .inr (.inr (.inr ⟨ownerId, assetId, currentOwnerId, originBytes, currentBytes,
          rfl, horigin, hcurrent, hasset, howned, heq⟩))
  · cases h

end Steps

/-! What is read after the writes. -/

theorem get_dels (ledger : Ledger) (assets : List String) (assetId : String) :
    (commit ledger (assets.map fun assetid => (constructAssetKey assetid, none))).get
        (constructAssetKey assetId) =
      if assetId ∈ assets then none else ledger.get (constructAssetKey assetId) := by
  induction assets generalizing ledger with
  | nil => rfl
  | cons asset assets ih =>
      rw [List.map_cons, commit_cons, ih]
      by_cases heq : assetId = asset
      · subst heq
        simp
      · rw [Lib.Mapping.get_set_of_ne _ _ fun hkey => heq (constructAssetKey_inj.mp hkey)]
        simp [heq]

theorem get_user_asset (ledger : Ledger) (record : Record) (userId assetId : String) :
    (ledger.set (constructUserKey userId) (some record)).get (constructAssetKey assetId) =
      ledger.get (constructAssetKey assetId) :=
  Lib.Mapping.get_set_of_ne _ _ (constructUserKey_ne_constructAssetKey _ _).symm

theorem get_history_asset (ledger : Ledger) (record : Record) (history : AssetHistory)
    (assetId : String) :
    (ledger.set (historyKey history) (some record)).get (constructAssetKey assetId) =
      ledger.get (constructAssetKey assetId) :=
  Lib.Mapping.get_set_of_ne _ _ Key.noConfusion

theorem get_exchanged_asset (ledger : Ledger) (origin current : User)
    (ownerId assetId currentOwnerId other : String) :
    (exchanged ledger origin current ownerId assetId currentOwnerId).get
        (constructAssetKey other) = ledger.get (constructAssetKey other) := by
  rw [exchanged, get_history_asset, get_user_asset, get_user_asset]

/-! Every record is kept under its key. -/

def Keyed (ledger : Ledger) : Prop :=
  ∀ key record, ledger.get key = some record → key = record.key

namespace Keyed

variable {ledger ledger' : Ledger}

theorem empty : Keyed ∅ := nofun

theorem put (h : Keyed ledger) (record : Record) {key : Key} (hkey : key = record.key) :
    Keyed (ledger.set key (some record)) := by
  intro other found hget
  by_cases heq : other = key
  · subst heq
    rw [Lib.Mapping.get_set_self] at hget
    cases hget
    exact hkey
  · rw [Lib.Mapping.get_set_of_ne _ _ heq] at hget
    exact h other found hget

theorem del (h : Keyed ledger) (key : Key) : Keyed (ledger.set key none) := by
  intro other found hget
  by_cases heq : other = key
  · subst heq
    rw [Lib.Mapping.get_set_self] at hget
    cases hget
  · rw [Lib.Mapping.get_set_of_ne _ _ heq] at hget
    exact h other found hget

theorem dels (h : Keyed ledger) (assets : List String) :
    Keyed (commit ledger (assets.map fun assetid => (constructAssetKey assetid, none))) := by
  induction assets generalizing ledger with
  | nil => exact h
  | cons asset assets ih => exact ih (h.del _)

theorem isUser (h : Keyed ledger) {id : String} {record : Record}
    (hget : ledger.get (constructUserKey id) = some record) :
    ∃ user, record = .user user ∧ user.id = id := by
  have hkey := h _ _ hget
  cases record with
  | user value => exact ⟨value, rfl, (constructUserKey_inj.mp hkey).symm⟩
  | asset value => exact absurd hkey (constructUserKey_ne_constructAssetKey _ _)
  | history value => cases hkey

theorem isAsset (h : Keyed ledger) {assetId : String} {record : Record}
    (hget : ledger.get (constructAssetKey assetId) = some record) :
    ∃ asset, record = .asset asset := by
  have hkey := h _ _ hget
  cases record with
  | user value => exact absurd hkey.symm (constructUserKey_ne_constructAssetKey _ _)
  | asset value => exact ⟨value, rfl⟩
  | history value => cases hkey

theorem step (h : Keyed ledger) {tx : Transaction}
    (hstep : AssetsExchange.step ledger tx = some ledger') : Keyed ledger' := by
  rcases step_cases hstep with ⟨name, id, _, _, rfl⟩ | ⟨id, userBytes, _, _, rfl⟩ |
    ⟨assetName, assetId, metadata, ownerId, userBytes, _, _, _, _, rfl⟩ |
    ⟨ownerId, assetId, currentOwnerId, originBytes, currentBytes, _, horigin, hcurrent, _, _,
      rfl⟩
  · exact h.put _ rfl
  · exact (h.del _).dels _
  · refine put (put (put h _ ?_) _ ?_) _ ?_ <;> rfl
  · obtain ⟨origin, rfl, rfl⟩ := h.isUser horigin
    obtain ⟨current, rfl, rfl⟩ := h.isUser hcurrent
    refine put (put (put h _ ?_) _ ?_) _ ?_ <;> rfl

end Keyed

theorem keyed_run (run : Lib.Run (∅ : Ledger) step) : ∀ k, k ≤ run.length → Keyed (run.state k) :=
  run.invariant Keyed.empty fun _ _ _ h hstep => h.step hstep

end BlockchainTutorial.Fabric.AssetsExchange
