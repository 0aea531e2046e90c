import BlockchainTutorial.Fabric.AssetsExchange

namespace BlockchainTutorial.Fabric.AssetsExchange

/-! What the history has of an asset, and what it was to have. -/

def Stored (ledger : Ledger) (history : AssetHistory) : Prop :=
  (ledger.get (historyKey history)).isSome

/-- The record that a transaction writes. -/
def recorded : Transaction → Option AssetHistory
  | ⟨.assetEnroll, [_, assetId, _, ownerId]⟩ => some ⟨assetId, originOwner, ownerId⟩
  | ⟨.assetExchange, [ownerId, assetId, currentOwnerId]⟩ =>
      some ⟨assetId, ownerId, currentOwnerId⟩
  | _ => none

/-- The last enrollment of an asset, and the transfers since. -/
structure Journal where
  enrollment : Option AssetHistory
  transfers : List AssetHistory
  deriving DecidableEq

def Journal.append (journal : Journal) (assetId : String) (tx : Transaction) : Journal :=
  match recorded tx with
  | none => journal
  | some history =>
      if history.assetId ≠ assetId then journal
      else if tx.function = .assetEnroll then ⟨some history, []⟩
      else { journal with transfers := journal.transfers ++ [history] }

/-- What a query gives is what has happened to the asset since it was enrolled last. -/
structure Answers (ledger : Ledger) (assetId : String) (journal : Journal)
    (enrollment : AssetHistory) : Prop where
  enrolled : journal.enrollment = some enrollment
  all : ∃ records, queryAssetHistory ledger [assetId, "all"] = .ok records ∧
    records.Perm (enrollment :: journal.transfers)
  enroll : queryAssetHistory ledger [assetId, "enroll"] = .ok [enrollment]
  exchange : ∃ records, queryAssetHistory ledger [assetId, "exchange"] = .ok records ∧
    records.Perm journal.transfers

section Queries

variable {ledger ledger' : Ledger}

theorem stored_of_entry (h : Keyed ledger) {attributes : List String} {record : Record}
    (hget : ledger.get (.composite "history" attributes) = some record) :
    ∃ history, record = .history history ∧
      attributes = [history.assetId, history.originOwnerId, history.currentOwnerId] := by
  have hkey := h _ _ hget
  cases record with
  | user value => cases hkey
  | asset value => cases hkey
  | history value =>
      cases hkey
      exact ⟨value, rfl, rfl⟩

/-- The records under a partial key, each once. -/
theorem records_under (h : Keyed ledger) {keys : List String} {values : List Record}
    (hvalues : getStateByPartialCompositeKey ledger "history" keys = .ok values) :
    (values.map Record.toHistory).Nodup ∧
      ∀ history : AssetHistory, history ∈ values.map Record.toHistory ↔
        keys <+: [history.assetId, history.originOwnerId, history.currentOwnerId] ∧
          Stored ledger history := by
  have hperm := (partial_perm hvalues).map Record.toHistory
  rw [List.map_map] at hperm
  constructor
  · refine hperm.nodup_iff.mpr ?_
    refine List.Nodup.map_on ?_ (nodup_partialEntries _ _ _)
    rintro ⟨attributes, record⟩ hentry ⟨attributes', record'⟩ hentry' heq
    obtain ⟨history, rfl, rfl⟩ := stored_of_entry h (mem_partialEntries.mp hentry).2
    obtain ⟨history', rfl, rfl⟩ := stored_of_entry h (mem_partialEntries.mp hentry').2
    obtain rfl : history = history' := heq
    rfl
  · intro history
    rw [hperm.mem_iff, List.mem_map]
    constructor
    · rintro ⟨⟨attributes, record⟩, hentry, rfl⟩
      obtain ⟨hkeys, hget⟩ := mem_partialEntries.mp hentry
      obtain ⟨found, rfl, rfl⟩ := stored_of_entry h hget
      exact ⟨hkeys, by rw [Stored, historyKey]; exact Option.isSome_of_mem hget⟩
    · rintro ⟨hkeys, hstored⟩
      obtain ⟨record, hget⟩ := Option.isSome_iff_exists.mp hstored
      obtain ⟨found, rfl, hattributes⟩ := stored_of_entry h hget
      refine ⟨_, mem_partialEntries.mpr ⟨hkeys, hget⟩, ?_⟩
      exact historyKey_inj.mp (congrArg (Key.composite "history") hattributes.symm)

/-- The ids of the assets, as they were checked when the assets were enrolled. -/
def IdsChecked (ledger : Ledger) : Prop :=
  ∀ assetId, (ledger.get (constructAssetKey assetId)).isSome →
    assetId ≠ "" ∧ isKeyPart assetId = true

theorem exists_histories (ledger : Ledger) (keys : List String)
    (h : keys.all isKeyPart = true) :
    ∃ values, getStateByPartialCompositeKey ledger "history" keys = .ok values := by
  refine exists_partial ledger ?_
  rw [List.all_cons, h]
  decide

theorem query_eq (hids : IdsChecked ledger) {assetId : String}
    (hasset : (ledger.get (constructAssetKey assetId)).isSome) {queryType : String}
    (htype : queryType = "all" ∨ queryType = "enroll" ∨ queryType = "exchange") :
    queryAssetHistory ledger [assetId, queryType] = histories ledger queryType assetId := by
  have hknown : ¬ (queryType ≠ "all" ∧ queryType ≠ "enroll" ∧ queryType ≠ "exchange") := by
    rintro ⟨hall, henroll, hexchange⟩
    rcases htype with h | h | h
    · exact hall h
    · exact henroll h
    · exact hexchange h
  have hfound : ¬ (ledger.get (constructAssetKey assetId)).isNone := by
    rw [Option.isNone_iff_eq_none]
    exact fun hnone => by rw [hnone] at hasset; cases hasset
  exact (if_neg (hids assetId hasset).1).trans ((if_neg hknown).trans (if_neg hfound))

theorem query_all (h : Keyed ledger) (hids : IdsChecked ledger) {assetId : String}
    (hasset : (ledger.get (constructAssetKey assetId)).isSome) :
    ∃ records, queryAssetHistory ledger [assetId, "all"] = .ok records ∧ records.Nodup ∧
      ∀ history, history ∈ records ↔ history.assetId = assetId ∧ Stored ledger history := by
  have hpart := (hids assetId hasset).2
  obtain ⟨values, hvalues⟩ := exists_histories ledger [assetId]
    (by rw [List.all_cons, hpart]; rfl)
  obtain ⟨hnodup, hmem⟩ := records_under h hvalues
  refine ⟨values.map Record.toHistory, ?_, hnodup, fun history => ?_⟩
  · simp only [query_eq hids hasset (.inl rfl), histories]
    rw [if_neg (show ¬ "all" = "enroll" by decide), hvalues]
    exact congrArg Except.ok (if_neg (by decide))
  · rw [hmem, List.cons_prefix_cons]
    simp [eq_comm]

theorem query_enroll (h : Keyed ledger) (hids : IdsChecked ledger) {assetId : String}
    (hasset : (ledger.get (constructAssetKey assetId)).isSome) :
    ∃ records, queryAssetHistory ledger [assetId, "enroll"] = .ok records ∧ records.Nodup ∧
      ∀ history, history ∈ records ↔ history.assetId = assetId ∧
        history.originOwnerId = originOwner ∧ Stored ledger history := by
  have hpart := (hids assetId hasset).2
  obtain ⟨values, hvalues⟩ := exists_histories ledger [assetId, originOwner]
    (by rw [List.all_cons, hpart]; decide)
  obtain ⟨hnodup, hmem⟩ := records_under h hvalues
  refine ⟨values.map Record.toHistory, ?_, hnodup, fun history => ?_⟩
  · simp only [query_eq hids hasset (.inr (.inl rfl)), histories]
    rw [if_pos trivial, hvalues]
    exact congrArg Except.ok (if_neg (by decide))
  · rw [hmem, List.cons_prefix_cons, List.cons_prefix_cons]
    simp [eq_comm, and_assoc]

theorem query_exchange (h : Keyed ledger) (hids : IdsChecked ledger) {assetId : String}
    (hasset : (ledger.get (constructAssetKey assetId)).isSome) :
    ∃ records, queryAssetHistory ledger [assetId, "exchange"] = .ok records ∧
      records.Nodup ∧
      ∀ history, history ∈ records ↔ history.assetId = assetId ∧
        history.originOwnerId ≠ originOwner ∧ Stored ledger history := by
  have hpart := (hids assetId hasset).2
  obtain ⟨values, hvalues⟩ := exists_histories ledger [assetId]
    (by rw [List.all_cons, hpart]; rfl)
  obtain ⟨hnodup, hmem⟩ := records_under h hvalues
  refine ⟨(values.map Record.toHistory).filter
    fun history => history.originOwnerId ≠ originOwner, ?_, hnodup.filter _, fun history => ?_⟩
  · simp only [query_eq hids hasset (.inr (.inr rfl)), histories]
    rw [if_neg (show ¬ "exchange" = "enroll" by decide), hvalues]
    exact congrArg Except.ok (if_pos trivial)
  · rw [List.mem_filter, hmem, List.cons_prefix_cons]
    constructor
    · rintro ⟨⟨⟨rfl, _⟩, hstored⟩, horigin⟩
      exact ⟨rfl, of_decide_eq_true horigin, hstored⟩
    · rintro ⟨rfl, horigin, hstored⟩
      exact ⟨⟨⟨rfl, List.nil_prefix⟩, hstored⟩, decide_eq_true horigin⟩

/-- The history of an asset is its journal, each entry once. -/
def Right (ledger : Ledger) (assetId : String) (journal : Journal) : Prop :=
  ∃ enrollment, journal.enrollment = some enrollment ∧
    enrollment.originOwnerId = originOwner ∧
    (∀ history ∈ journal.transfers, history.originOwnerId ≠ originOwner) ∧
    (enrollment :: journal.transfers).Nodup ∧
    ∀ history : AssetHistory, history ∈ enrollment :: journal.transfers ↔
      history.assetId = assetId ∧ Stored ledger history

theorem answers_iff (h : Keyed ledger) (hids : IdsChecked ledger) {assetId : String}
    (hasset : (ledger.get (constructAssetKey assetId)).isSome) (journal : Journal) :
    (∃ enrollment, Answers ledger assetId journal enrollment) ↔ Right ledger assetId journal := by
  obtain ⟨all, hall, hallNodup, hallMem⟩ := query_all h hids hasset
  obtain ⟨enroll, henroll, henrollNodup, henrollMem⟩ := query_enroll h hids hasset
  obtain ⟨exchange, hexchange, hexchangeNodup, hexchangeMem⟩ := query_exchange h hids hasset
  constructor
  · rintro ⟨enrollment, henrolled, ⟨records, hrecords, hperm⟩, honly, records', hrecords',
      hperm'⟩
    obtain rfl : all = records := Except.ok.inj (hall.symm.trans hrecords)
    obtain rfl : exchange = records' := Except.ok.inj (hexchange.symm.trans hrecords')
    obtain rfl : enroll = [enrollment] := Except.ok.inj (henroll.symm.trans honly)
    refine ⟨enrollment, henrolled, ((henrollMem enrollment).mp List.mem_cons_self).2.1, ?_,
      hperm.nodup_iff.mp hallNodup, fun history => ?_⟩
    · intro history hmem
      exact ((hexchangeMem history).mp (hperm'.mem_iff.mpr hmem)).2.1
    · rw [← hperm.mem_iff, hallMem]
  · rintro ⟨enrollment, henrolled, horigin, htransfers, hnodup, hmem⟩
    obtain ⟨hnew, hnodup'⟩ := List.nodup_cons.mp hnodup
    have honly : enroll = [enrollment] := by
      refine List.perm_singleton.mp
        ((List.perm_ext_iff_of_nodup henrollNodup (List.nodup_singleton _)).mpr ?_)
      intro history
      rw [henrollMem, List.mem_singleton]
      constructor
      · rintro ⟨hid, hfrom, hstored⟩
        rcases List.mem_cons.mp ((hmem history).mpr ⟨hid, hstored⟩) with heq | hlater
        · exact heq
        · exact absurd hfrom (htransfers history hlater)
      · rintro rfl
        have hfound := (hmem history).mp List.mem_cons_self
        exact ⟨hfound.1, horigin, hfound.2⟩
    refine ⟨enrollment, henrolled, ⟨all, hall, ?_⟩, by rw [henroll, honly],
      exchange, hexchange, ?_⟩
    · refine (List.perm_ext_iff_of_nodup hallNodup hnodup).mpr fun history => ?_
      rw [hallMem, hmem]
    · refine (List.perm_ext_iff_of_nodup hexchangeNodup hnodup').mpr fun history => ?_
      rw [hexchangeMem]
      constructor
      · rintro ⟨hid, hfrom, hstored⟩
        rcases List.mem_cons.mp ((hmem history).mpr ⟨hid, hstored⟩) with rfl | hlater
        · exact absurd horigin hfrom
        · exact hlater
      · intro hlater
        have hfound := (hmem history).mp (List.mem_cons_of_mem _ hlater)
        exact ⟨hfound.1, htransfers history hlater, hfound.2⟩

end Queries

/-! What a transaction adds. -/

section Steps

variable {ledger ledger' : Ledger} {tx : Transaction}

theorem stored_set_user (ledger : Ledger) (userId : String) (value : Option Record)
    (history : AssetHistory) :
    Stored (ledger.set (constructUserKey userId) value) history ↔ Stored ledger history := by
  rw [Stored, Stored, Lib.Mapping.get_set_of_ne _ _ Key.noConfusion]

theorem stored_set_asset (ledger : Ledger) (assetId : String) (value : Option Record)
    (history : AssetHistory) :
    Stored (ledger.set (constructAssetKey assetId) value) history ↔ Stored ledger history := by
  rw [Stored, Stored, Lib.Mapping.get_set_of_ne _ _ Key.noConfusion]

theorem stored_set_history (ledger : Ledger) (written history : AssetHistory) :
    Stored (ledger.set (historyKey written) (some (.history written))) history ↔
      Stored ledger history ∨ some written = some history := by
  by_cases heq : history = written
  · subst heq
    simp [Stored]
  · rw [Stored, Lib.Mapping.get_set_of_ne _ _ fun hkey => heq (historyKey_inj.mp hkey), Stored]
    simp [Ne.symm heq]

theorem stored_dels (ledger : Ledger) (assets : List String) (history : AssetHistory) :
    Stored (commit ledger (assets.map fun assetid => (constructAssetKey assetid, none))) history ↔
      Stored ledger history := by
  induction assets generalizing ledger with
  | nil => rfl
  | cons asset assets ih =>
      rw [List.map_cons, commit_cons, ih]
      exact stored_set_asset ledger asset none history

/-- No record goes away. -/
theorem stored_step (hstep : step ledger tx = some ledger') (history : AssetHistory) :
    Stored ledger' history ↔ Stored ledger history ∨ recorded tx = some history := by
  rcases step_cases hstep with ⟨name, id, rfl, _, rfl⟩ | ⟨id, userBytes, rfl, _, rfl⟩ |
    ⟨assetName, assetId, metadata, ownerId, userBytes, rfl, _, _, _, rfl⟩ |
    ⟨ownerId, assetId, currentOwnerId, originBytes, currentBytes, rfl, _, _, _, _, rfl⟩
  · simp [registered, stored_set_user, recorded]
  · simp [destroyed, stored_dels, stored_set_user, recorded]
  · rw [enrolled, stored_set_history, stored_set_user, stored_set_asset]
    rfl
  · rw [exchanged, stored_set_history, stored_set_user, stored_set_user]
    rfl

/-- What is recorded of which asset. -/
theorem recorded_step (hstep : step ledger tx = some ledger') {history : AssetHistory}
    (hrecorded : recorded tx = some history) :
    (ledger'.get (constructAssetKey history.assetId)).isSome ∧
      ((tx.function = .assetEnroll ∧ history.originOwnerId = originOwner) ∨
        (tx.function ≠ .assetEnroll ∧
          (ledger.get (constructAssetKey history.assetId)).isSome)) := by
  rcases step_cases hstep with ⟨name, id, rfl, _, rfl⟩ | ⟨id, userBytes, rfl, _, rfl⟩ |
    ⟨assetName, assetId, metadata, ownerId, userBytes, rfl, _, _, _, rfl⟩ |
    ⟨ownerId, assetId, currentOwnerId, originBytes, currentBytes, rfl, _, _, hasset, _, rfl⟩
  · cases hrecorded
  · cases hrecorded
  · cases hrecorded
    refine ⟨?_, .inl ⟨rfl, rfl⟩⟩
    rw [enrolled, get_history_asset, get_user_asset, Lib.Mapping.get_set_self]
    rfl
  · cases hrecorded
    refine ⟨?_, .inr ⟨nofun, hasset⟩⟩
    rw [get_exchanged_asset]
    exact hasset

/-- An asset is there after a step when it was there before or is enrolled. -/
theorem asset_step (hstep : step ledger tx = some ledger') {assetId : String}
    (hasset : (ledger'.get (constructAssetKey assetId)).isSome) :
    (ledger.get (constructAssetKey assetId)).isSome ∨
      tx.function = .assetEnroll ∧ (∃ history, recorded tx = some history ∧
        history.assetId = assetId) ∧ assetId ≠ "" ∧ isKeyPart assetId = true := by
  rcases step_cases hstep with ⟨name, id, rfl, _, rfl⟩ | ⟨id, userBytes, rfl, _, rfl⟩ |
    ⟨assetName, newId, metadata, ownerId, userBytes, rfl, _, _, hid, rfl⟩ |
    ⟨ownerId, exchangedId, currentOwnerId, originBytes, currentBytes, rfl, _, _, _, _, rfl⟩
  · rw [registered, get_user_asset] at hasset
    exact .inl hasset
  · rw [destroyed, get_dels] at hasset
    split at hasset
    · cases hasset
    · rw [Lib.Mapping.get_set_of_ne _ _
        (constructUserKey_ne_constructAssetKey _ _).symm] at hasset
      exact .inl hasset
  · rw [enrolled, get_history_asset, get_user_asset] at hasset
    by_cases heq : assetId = newId
    · subst heq
      exact .inr ⟨rfl, ⟨_, rfl, rfl⟩, hid⟩
    · rw [Lib.Mapping.get_set_of_ne _ _ fun hkey => heq (constructAssetKey_inj.mp hkey)]
        at hasset
      exact .inl hasset
  · rw [get_exchanged_asset] at hasset
    exact .inl hasset

theorem IdsChecked.step (h : IdsChecked ledger) (hstep : step ledger tx = some ledger') :
    IdsChecked ledger' := by
  intro assetId hasset
  rcases asset_step hstep hasset with hbefore | ⟨_, _, hid⟩
  · exact h assetId hbefore
  · exact hid

/-- An enrollment finds no other record of the asset, and a transfer does not find its own. -/
def Fresh (ledger : Ledger) (tx : Transaction) : Prop :=
  ∀ history, recorded tx = some history →
    if tx.function = .assetEnroll then
      ∀ other : AssetHistory, other.assetId = history.assetId → Stored ledger other →
        other = history
    else history.originOwnerId ≠ originOwner ∧ ¬ Stored ledger history

theorem append_none (journal : Journal) (assetId : String) (h : recorded tx = none) :
    journal.append assetId tx = journal := by
  rw [Journal.append, h]

theorem append_other (journal : Journal) {assetId : String} {history : AssetHistory}
    (h : recorded tx = some history) (hid : history.assetId ≠ assetId) :
    journal.append assetId tx = journal := by
  rw [Journal.append, h]
  exact if_pos hid

theorem append_enrollment (journal : Journal) {history : AssetHistory}
    (h : recorded tx = some history) (hfunction : tx.function = .assetEnroll) :
    journal.append history.assetId tx = ⟨some history, []⟩ := by
  rw [Journal.append, h]
  exact (if_neg fun hid => hid rfl).trans (if_pos hfunction)

theorem append_transfer (journal : Journal) {history : AssetHistory}
    (h : recorded tx = some history) (hfunction : tx.function ≠ .assetEnroll) :
    journal.append history.assetId tx =
      { journal with transfers := journal.transfers ++ [history] } := by
  rw [Journal.append, h]
  exact (if_neg fun hid => hid rfl).trans (if_neg hfunction)

theorem Right.congr {assetId : String} {journal : Journal} (h : Right ledger assetId journal)
    (hstored : ∀ history : AssetHistory, history.assetId = assetId →
      (Stored ledger' history ↔ Stored ledger history)) : Right ledger' assetId journal := by
  obtain ⟨enrollment, henrolled, horigin, htransfers, hnodup, hmem⟩ := h
  refine ⟨enrollment, henrolled, horigin, htransfers, hnodup, fun history => ?_⟩
  rw [hmem]
  exact and_congr_right fun hid => (hstored history hid).symm

/-- An enrollment starts the history of an asset. -/
theorem right_enrollment_iff (hstep : step ledger tx = some ledger') {history : AssetHistory}
    (hrecorded : recorded tx = some history) (horigin : history.originOwnerId = originOwner) :
    Right ledger' history.assetId ⟨some history, []⟩ ↔
      ∀ other : AssetHistory, other.assetId = history.assetId → Stored ledger other →
        other = history := by
  constructor
  · rintro ⟨enrollment, henrolled, _, _, _, hmem⟩ other hid hstored
    have hother := (hmem other).mpr ⟨hid, (stored_step hstep other).mpr (.inl hstored)⟩
    rw [List.mem_singleton.mp hother]
    exact (Option.some.inj henrolled).symm
  · intro honly
    refine ⟨history, rfl, horigin, nofun, List.nodup_singleton _, fun other => ?_⟩
    rw [List.mem_singleton, stored_step hstep, hrecorded, Option.some.injEq]
    constructor
    · rintro rfl
      exact ⟨rfl, .inr rfl⟩
    · rintro ⟨hid, hstored | heq⟩
      · exact honly other hid hstored
      · exact heq.symm

/-- A transfer adds to the history of an asset. -/
theorem right_transfer_iff (hstep : step ledger tx = some ledger') {history : AssetHistory}
    (hrecorded : recorded tx = some history) {journal : Journal}
    (h : Right ledger history.assetId journal) :
    Right ledger' history.assetId
        { journal with transfers := journal.transfers ++ [history] } ↔
      history.originOwnerId ≠ originOwner ∧ ¬ Stored ledger history := by
  obtain ⟨enrollment, henrolled, horigin, htransfers, hnodup, hmem⟩ := h
  constructor
  · rintro ⟨enrollment', henrolled', _, htransfers', hnodup', _⟩
    obtain rfl : enrollment' = enrollment :=
      Option.some.inj (henrolled'.symm.trans henrolled)
    refine ⟨htransfers' history (List.mem_append_right _ List.mem_cons_self), fun hstored => ?_⟩
    rw [← List.cons_append] at hnodup'
    exact (List.nodup_append.mp hnodup').2.2 history ((hmem history).mpr ⟨rfl, hstored⟩)
      history List.mem_cons_self rfl
  · rintro ⟨hfrom, hnew⟩
    refine ⟨enrollment, henrolled, horigin, fun other hother => ?_, ?_, fun other => ?_⟩
    · rcases List.mem_append.mp hother with hbefore | hlast
      · exact htransfers other hbefore
      · rw [List.mem_singleton.mp hlast]
        exact hfrom
    · rw [← List.cons_append]
      refine hnodup.append (List.nodup_singleton _) (List.disjoint_singleton.mpr ?_)
      exact fun hfound => hnew ((hmem history).mp hfound).2
    · rw [← List.cons_append, List.mem_append, hmem, List.mem_singleton, stored_step hstep,
        hrecorded, Option.some.injEq]
      constructor
      · rintro (⟨hid, hstored⟩ | rfl)
        · exact ⟨hid, .inl hstored⟩
        · exact ⟨rfl, .inr rfl⟩
      · rintro ⟨hid, hstored | heq⟩
        · exact .inl ⟨hid, hstored⟩
        · exact .inr heq.symm

theorem right_step_iff (hstep : step ledger tx = some ledger') {journals : String → Journal}
    (hright : ∀ assetId, (ledger.get (constructAssetKey assetId)).isSome →
      Right ledger assetId (journals assetId)) :
    (∀ assetId, (ledger'.get (constructAssetKey assetId)).isSome →
      Right ledger' assetId ((journals assetId).append assetId tx)) ↔ Fresh ledger tx := by
  constructor
  · intro hright' history hrecorded
    obtain ⟨hasset', hkind⟩ := recorded_step hstep hrecorded
    have hafter := hright' history.assetId hasset'
    rcases hkind with ⟨hfunction, horigin⟩ | ⟨hfunction, hasset⟩
    · rw [if_pos hfunction]
      rw [append_enrollment _ hrecorded hfunction] at hafter
      exact (right_enrollment_iff hstep hrecorded horigin).mp hafter
    · rw [if_neg hfunction]
      rw [append_transfer _ hrecorded hfunction] at hafter
      exact (right_transfer_iff hstep hrecorded (hright _ hasset)).mp hafter
  · intro hfresh assetId hasset'
    cases hrecorded : recorded tx with
    | none =>
        rw [append_none _ _ hrecorded]
        rcases asset_step hstep hasset' with hasset | ⟨_, ⟨history, hsome, _⟩, _⟩
        · refine (hright assetId hasset).congr fun other _ => ?_
          rw [stored_step hstep, hrecorded]
          simp
        · rw [hrecorded] at hsome
          cases hsome
    | some history =>
        have hkept := hfresh history hrecorded
        by_cases hid : history.assetId = assetId
        · subst hid
          rcases (recorded_step hstep hrecorded).2 with ⟨hfunction, horigin⟩ | ⟨hfunction, hasset⟩
          · rw [if_pos hfunction] at hkept
            rw [append_enrollment _ hrecorded hfunction]
            exact (right_enrollment_iff hstep hrecorded horigin).mpr hkept
          · rw [if_neg hfunction] at hkept
            rw [append_transfer _ hrecorded hfunction]
            exact (right_transfer_iff hstep hrecorded (hright _ hasset)).mpr hkept
        · rw [append_other _ hrecorded hid]
          rcases asset_step hstep hasset' with hasset | ⟨_, ⟨other, hsome, hother⟩, _⟩
          · refine (hright assetId hasset).congr fun other hother => ?_
            rw [stored_step hstep, hrecorded, Option.some.injEq, or_iff_left]
            rintro rfl
            exact hid hother
          · rw [hrecorded] at hsome
            cases hsome
            exact absurd hother hid

end Steps

section Runs

variable (run : Lib.Run (∅ : Ledger) step)

/-- The journal of an asset after `k` transactions. -/
def journal (assetId : String) : Nat → Journal
  | 0 => ⟨none, []⟩
  | k + 1 => (journal assetId k).append assetId (run.act k)

theorem idsChecked_run : ∀ k, k ≤ run.length → IdsChecked (run.state k) :=
  run.invariant nofun fun _ _ _ h hstep => h.step hstep

theorem right_run_iff :
    (∀ k, k ≤ run.length → ∀ assetId,
      ((run.state k).get (constructAssetKey assetId)).isSome →
        Right (run.state k) assetId (journal run assetId k)) ↔ run.AllSteps Fresh := by
  constructor
  · intro hright k hk
    exact (right_step_iff (run.steps k hk) (hright k (by omega))).mp (hright (k + 1) hk)
  · intro hfresh
    refine run.induct ?_ ?_
    · rw [run.starts]
      nofun
    · intro k hk ih
      exact (right_step_iff (run.steps k hk) ih).mpr (hfresh k hk)

theorem history_complete_iff :
    (∀ k, k ≤ run.length → ∀ assetId,
      ((run.state k).get (constructAssetKey assetId)).isSome →
        ∃ enrollment, Answers (run.state k) assetId (journal run assetId k) enrollment) ↔
      run.AllSteps Fresh := by
  rw [← right_run_iff]
  refine forall₃_congr fun k hk assetId => forall_congr' fun hasset => ?_
  exact answers_iff (keyed_run run k hk) (idsChecked_run run k hk) hasset _

end Runs

/-- The way there, back and there again. -/
def thereAgain : List Transaction :=
  [⟨.userRegister, ["Alice", "a"]⟩, ⟨.userRegister, ["Bob", "b"]⟩,
    ⟨.assetEnroll, ["house", "h", "", "a"]⟩, ⟨.assetExchange, ["a", "h", "b"]⟩,
    ⟨.assetExchange, ["b", "h", "a"]⟩, ⟨.assetExchange, ["a", "h", "b"]⟩]

theorem thereAgain_reached : (Lib.exec step (∅ : Ledger) thereAgain).map
    (fun ledger => ((ledger.get (constructAssetKey "h")).isSome,
      (queryAssetHistory ledger ["h", "all"]).toOption.map List.length)) =
      some (true, some 3) := by
  decide +kernel

theorem thereAgain_runs : (Lib.exec step (∅ : Ledger) thereAgain).isSome := by decide +kernel

/-- Of one enrollment and three transfers, three records are left. -/
theorem transfer_forgotten :
    ∃ (run : Lib.Run (∅ : Ledger) step) (assetId : String),
      ((run.state run.length).get (constructAssetKey assetId)).isSome ∧
      ¬ ∃ enrollment, Answers (run.state run.length) assetId
        (journal run assetId run.length) enrollment := by
  have hread := thereAgain_reached
  rw [Lib.Run.ofActions_last thereAgain_runs, Option.map_some, Option.some.injEq,
    Prod.mk.injEq] at hread
  refine ⟨Lib.Run.ofActions thereAgain thereAgain_runs, "h", hread.1, ?_⟩
  rintro ⟨enrollment, _, ⟨records, hrecords, hperm⟩, _⟩
  have hthree := hread.2
  have hjournal :
      (journal (Lib.Run.ofActions thereAgain thereAgain_runs) "h" thereAgain.length).transfers =
        [⟨"h", "a", "b"⟩, ⟨"h", "b", "a"⟩, ⟨"h", "a", "b"⟩] := by decide +kernel
  have hfour : records.length = 4 := by
    rw [hperm.length_eq, List.length_cons]
    exact congrArg (fun transfers => List.length transfers + 1) hjournal
  have hrecords' : queryAssetHistory
      ((Lib.Run.ofActions thereAgain thereAgain_runs).state thereAgain.length) ["h", "all"] =
        .ok records := hrecords
  rw [hrecords'] at hthree
  rw [Except.toOption, Option.map_some, hfour] at hthree
  cases hthree

end BlockchainTutorial.Fabric.AssetsExchange
