import BlockchainTutorial.Bitcoin.Reindex

namespace BlockchainTutorial.Bitcoin

/-! Calls of `Reindex` that run beside each other and beside the transactions of
`AddBlock` and `MineBlock`. -/

inductive ReindexCall where
  | begun
  | cleared
  | scanned (utxo : Bucket)
  | finished

def ReindexCall.isFinished : ReindexCall → Bool
  | .finished => true
  | _ => false

structure Indexing where
  handlers : Handlers
  chainstate : Bucket
  calls : List ReindexCall

/-- `rebuild` says whether the handler of a transaction goes on to `Reindex`. -/
inductive IndexingAction where
  | handle (action : HandlerAction) (rebuild : Bool)
  | reindex
  | clear (n : Nat)
  | scan (n fuel : Nat)
  | write (n : Nat)

instance : Inhabited IndexingAction := ⟨.reindex⟩

def IndexingAction.Clears : IndexingAction → Prop
  | .clear _ => True
  | _ => False

theorem IndexingAction.Clears.exists_clear {action : IndexingAction} (h : action.Clears) :
    ∃ n, action = .clear n := by
  cases action with
  | clear n => exact ⟨n, rfl⟩
  | _ => cases h

/-- `MineBlock` sets the tip, and `AddBlock` does for a higher block. -/
def HandlerAction.changesTip (handlers handlers' : Handlers) : HandlerAction → Bool
  | .mineWrite .. => true
  | .addBlock _ => decide (handlers'.store.tip ≠ handlers.store.tip)
  | .mineRead .. => false

def IndexingAction.ChangesTip (handlers handlers' : Handlers) : IndexingAction → Prop
  | .handle action _ => action.changesTip handlers handlers' = true
  | _ => False

namespace Indexing

/-- A handler that changes the tip rebuilds the index afterwards. -/
def step (crypto : Crypto) (decode : Bytes → Option Block) (indexing : Indexing) :
    IndexingAction → Option Indexing
  | .handle action rebuild => do
      let handlers ← indexing.handlers.step crypto decode action
      if rebuild then
        some { indexing with handlers, calls := indexing.calls ++ [.begun] }
      else if action.changesTip indexing.handlers handlers then none
      else some { indexing with handlers }
  | .reindex => some { indexing with calls := indexing.calls ++ [.begun] }
  | .clear n =>
      match indexing.calls[n]? with
      | some .begun =>
          some { indexing with
            chainstate := UTXOSet.cleared, calls := indexing.calls.set n .cleared }
      | _ => none
  | .scan n fuel =>
      match indexing.calls[n]? with
      | some .cleared =>
          (indexing.handlers.store.findUTXO decode fuel).map fun utxo =>
            { indexing with calls := indexing.calls.set n (.scanned utxo) }
      | _ => none
  | .write n =>
      match indexing.calls[n]? with
      | some (.scanned utxo) =>
          (UTXOSet.write indexing.chainstate utxo).map fun chainstate =>
            { indexing with chainstate, calls := indexing.calls.set n .finished }
      | _ => none

/-- No call of `Reindex` is under way. -/
def Idle (indexing : Indexing) : Prop :=
  indexing.calls.all ReindexCall.isFinished = true

instance (indexing : Indexing) : Decidable indexing.Idle :=
  inferInstanceAs (Decidable (_ = true))

/-- The bucket holds what `FindUTXO` returns for the tip. -/
def Right (decode : Bytes → Option Block) (indexing : Indexing) : Prop :=
  ∃ utxo, indexing.handlers.store.Scans decode utxo ∧
    ∀ id, indexing.chainstate.get id = utxo.get id

/-- What an action writes into the bucket. -/
def writes (indexing : Indexing) : IndexingAction → Option Bucket
  | .write n =>
      match indexing.calls[n]? with
      | some (.scanned utxo) => some utxo
      | _ => none
  | _ => none

theorem writes_eq_some {indexing : Indexing} {action : IndexingAction} {utxo : Bucket}
    (h : indexing.writes action = some utxo) :
    ∃ n, action = .write n ∧ indexing.calls[n]? = some (.scanned utxo) := by
  cases action with
  | write n =>
      simp only [writes] at h
      split at h
      · rename_i scanned hcall
        cases h
        exact ⟨n, rfl, hcall⟩
      · cases h
  | _ => cases h

/-- What a step does. -/
inductive Stepped (crypto : Crypto) (decode : Bytes → Option Block) (indexing : Indexing) :
    IndexingAction → Indexing → Prop
  | rebuilt (action : HandlerAction) (handlers : Handlers)
      (hhandle : indexing.handlers.step crypto decode action = some handlers) :
      Stepped crypto decode indexing (.handle action true)
        { indexing with handlers, calls := indexing.calls ++ [.begun] }
  | kept (action : HandlerAction) (handlers : Handlers)
      (hhandle : indexing.handlers.step crypto decode action = some handlers)
      (htip : action.changesTip indexing.handlers handlers = false) :
      Stepped crypto decode indexing (.handle action false) { indexing with handlers }
  | reindex : Stepped crypto decode indexing .reindex
      { indexing with calls := indexing.calls ++ [.begun] }
  | clear (n : Nat) (hcall : indexing.calls[n]? = some .begun) :
      Stepped crypto decode indexing (.clear n)
        { indexing with
          chainstate := UTXOSet.cleared, calls := indexing.calls.set n .cleared }
  | scan (n fuel : Nat) (utxo : Bucket) (hcall : indexing.calls[n]? = some .cleared)
      (hscan : indexing.handlers.store.findUTXO decode fuel = some utxo) :
      Stepped crypto decode indexing (.scan n fuel)
        { indexing with calls := indexing.calls.set n (.scanned utxo) }
  | write (n : Nat) (utxo chainstate : Bucket)
      (hcall : indexing.calls[n]? = some (.scanned utxo))
      (hwrite : UTXOSet.write indexing.chainstate utxo = some chainstate) :
      Stepped crypto decode indexing (.write n)
        { indexing with chainstate, calls := indexing.calls.set n .finished }

variable {crypto : Crypto} {decode : Bytes → Option Block} {indexing indexing' : Indexing}
  {action : IndexingAction}

theorem step_eq_some (h : indexing.step crypto decode action = some indexing') :
    Stepped crypto decode indexing action indexing' := by
  cases action with
  | handle action rebuild =>
      obtain ⟨handlers, hhandle, h⟩ := Option.bind_eq_some_iff.mp h
      cases rebuild with
      | true =>
          cases h
          exact .rebuilt action handlers hhandle
      | false =>
          cases htip : action.changesTip indexing.handlers handlers with
          | true => simp [htip] at h
          | false =>
              simp only [htip, Bool.false_eq_true, if_false, Option.some.injEq] at h
              subst h
              exact .kept action handlers hhandle htip
  | reindex =>
      cases h
      exact .reindex
  | clear n =>
      simp only [step] at h
      split at h
      · rename_i hcall
        cases h
        exact .clear n hcall
      · cases h
  | scan n fuel =>
      simp only [step] at h
      split at h
      · rename_i hcall
        obtain ⟨utxo, hscan, rfl⟩ := Option.map_eq_some_iff.mp h
        exact .scan n fuel utxo hcall hscan
      · cases h
  | write n =>
      simp only [step] at h
      split at h
      · rename_i utxo hcall
        obtain ⟨chainstate, hwrite, rfl⟩ := Option.map_eq_some_iff.mp h
        exact .write n utxo chainstate hcall hwrite
      · cases h

/-- What a step does to one call of `Reindex`. -/
inductive CallStepped (decode : Bytes → Option Block) (indexing : Indexing) (n : Nat) :
    IndexingAction → ReindexCall → ReindexCall → Prop
  | same (action : IndexingAction) (call : ReindexCall) :
      CallStepped decode indexing n action call call
  | clear : CallStepped decode indexing n (.clear n) .begun .cleared
  | scan (fuel : Nat) (utxo : Bucket)
      (hscan : indexing.handlers.store.findUTXO decode fuel = some utxo) :
      CallStepped decode indexing n (.scan n fuel) .cleared (.scanned utxo)
  | write (utxo : Bucket) (hwrites : indexing.writes (.write n) = some utxo) :
      CallStepped decode indexing n (.write n) (.scanned utxo) .finished

namespace Stepped

theorem call (h : Stepped crypto decode indexing action indexing') {n : Nat}
    {call : ReindexCall} (hcall : indexing.calls[n]? = some call) :
    ∃ call', indexing'.calls[n]? = some call' ∧
      CallStepped decode indexing n action call call' := by
  have hset : ∀ m new, m ≠ n → (indexing.calls.set m new)[n]? = some call := by
    intro m new hne
    rw [List.getElem?_set_ne hne, hcall]
  have hself : ∀ new, (indexing.calls.set n new)[n]? = some new := by
    intro new
    rw [List.getElem?_set_self (List.getElem?_eq_some_iff.mp hcall).1]
  have happend : (indexing.calls ++ [.begun])[n]? = some call := by
    rw [List.getElem?_append_left (List.getElem?_eq_some_iff.mp hcall).1, hcall]
  cases h with
  | rebuilt => exact ⟨call, happend, .same _ _⟩
  | kept => exact ⟨call, hcall, .same _ _⟩
  | reindex => exact ⟨call, happend, .same _ _⟩
  | clear m hm =>
      by_cases heq : m = n
      · subst heq
        rw [hm] at hcall
        cases hcall
        exact ⟨_, hself _, .clear⟩
      · exact ⟨call, hset _ _ heq, .same _ _⟩
  | scan m fuel utxo hm hscan =>
      by_cases heq : m = n
      · subst heq
        rw [hm] at hcall
        cases hcall
        exact ⟨_, hself _, .scan fuel utxo hscan⟩
      · exact ⟨call, hset _ _ heq, .same _ _⟩
  | write m utxo chainstate hm hwrite =>
      by_cases heq : m = n
      · subst heq
        rw [hm] at hcall
        cases hcall
        refine ⟨_, hself _, .write utxo ?_⟩
        simp only [writes, hm]
      · exact ⟨call, hset _ _ heq, .same _ _⟩

theorem length_le (h : Stepped crypto decode indexing action indexing') :
    indexing.calls.length ≤ indexing'.calls.length := by
  cases h <;> simp

/-- A call that comes up has just begun. -/
theorem new_call (h : Stepped crypto decode indexing action indexing') {n : Nat}
    {call : ReindexCall} (hnone : indexing.calls[n]? = none)
    (hcall : indexing'.calls[n]? = some call) : call = .begun := by
  have hle := List.getElem?_eq_none_iff.mp hnone
  have happend : (indexing.calls ++ [.begun])[n]? = some call → call = .begun := by
    intro hnew
    rw [List.getElem?_append_right hle] at hnew
    exact List.mem_singleton.mp (List.mem_of_getElem? hnew)
  have hset : ∀ m new, (indexing.calls.set m new)[n]? ≠ some call := by
    intro m new hnew
    rw [List.getElem?_eq_none (by rwa [List.length_set])] at hnew
    cases hnew
  cases h with
  | rebuilt => exact happend hcall
  | kept =>
      rw [hnone] at hcall
      cases hcall
  | reindex => exact happend hcall
  | clear => exact absurd hcall (hset _ _)
  | scan => exact absurd hcall (hset _ _)
  | write => exact absurd hcall (hset _ _)

theorem not_clears (h : Stepped crypto decode indexing action indexing')
    (hcalls : indexing.calls = []) : ¬ action.Clears := by
  intro hclears
  cases h with
  | clear n hcall =>
      rw [hcalls] at hcall
      cases hcall
  | _ => cases hclears

theorem chainstate_of_clears (h : Stepped crypto decode indexing action indexing')
    (hclears : action.Clears) : indexing'.chainstate = UTXOSet.cleared := by
  cases h with
  | clear => rfl
  | _ => cases hclears

/-- The other steps put into the bucket what they write. -/
theorem chainstate_get (h : Stepped crypto decode indexing action indexing')
    (hclears : ¬ action.Clears) (id : Bytes) :
    indexing'.chainstate.get id =
      ((indexing.writes action).bind fun utxo => utxo.get id).or
        (indexing.chainstate.get id) := by
  cases h with
  | clear => exact absurd trivial hclears
  | write n utxo chainstate hcall hwrite =>
      rw [UTXOSet.write_get hwrite]
      simp only [writes, hcall, Option.bind_some]
  | _ => exact Option.none_or.symm

/-- The chain from the tip stays as it is, or the step changes the tip. -/
theorem scans (h : Stepped crypto decode indexing action indexing') {utxo : Bucket}
    (hscans : indexing.handlers.store.Scans decode utxo) :
    indexing'.handlers.store.Scans decode utxo ∨
      action.ChangesTip indexing.handlers indexing'.handlers := by
  have hhandled : ∀ {action handlers}, indexing.handlers.step crypto decode action =
      some handlers → handlers.store.Scans decode utxo ∨
        action.changesTip indexing.handlers handlers = true := by
    intro action handlers hhandle
    cases htip : action.changesTip indexing.handlers handlers with
    | true => exact .inr rfl
    | false =>
        refine .inl ?_
        cases Handlers.step_eq_some hhandle with
        | addBlock block store hint hadd =>
            exact hscans.addBlock hadd (by simpa [HandlerAction.changesTip] using htip)
        | mineRead => exact hscans
        | mineWrite => cases htip
  cases h with
  | rebuilt action handlers hhandle => exact hhandled hhandle
  | kept action handlers hhandle htip => exact hhandled hhandle
  | _ => exact .inl hscans

/-- A step that changes the tip begins a call of `Reindex`. -/
theorem calls_of_changesTip (h : Stepped crypto decode indexing action indexing')
    (htip : action.ChangesTip indexing.handlers indexing'.handlers) :
    indexing'.calls = indexing.calls ++ [.begun] := by
  cases h with
  | rebuilt => rfl
  | kept action handlers hhandle hkept =>
      rw [IndexingAction.ChangesTip, hkept] at htip
      cases htip
  | _ => cases htip

end Stepped

end Indexing

abbrev IndexingRun (crypto : Crypto) (decode : Bytes → Option Block) (store : BlockStore)
    (chainstate : Bucket) :=
  Lib.Run (⟨⟨store, []⟩, chainstate, []⟩ : Indexing) (Indexing.step crypto decode)

section Runs

variable {crypto : Crypto} {decode : Bytes → Option Block} {store : BlockStore}
  {chainstate : Bucket} (run : IndexingRun crypto decode store chainstate)

/-- The bucket is not cleared after step `j` and before step `k`. -/
def Uncleared (j k : Nat) : Prop :=
  ∀ i, j < i → i < k → ¬ (run.act i).Clears

/-- Step `k` changes the tip. -/
def TipChanges (k : Nat) : Prop :=
  (run.act k).ChangesTip (run.state k).handlers (run.state (k + 1)).handlers

/-- Step `j` writes what a call of `Reindex` scanned before the tip changed. -/
def WritesLate (j : Nat) : Prop :=
  ∃ n fuel s t, run.act s = .scan n fuel ∧ s < t ∧ TipChanges run t ∧ t < j ∧
    run.act j = .write n

/-- The bucket is cleared after each late write. -/
def LateCleared (k : Nat) : Prop :=
  ∀ j, j < k → WritesLate run j → ¬ Uncleared run j k

/-- What step `j` writes for an ID. -/
def entryAt (id : Bytes) (j : Nat) : Option (List TXOutput) :=
  ((run.state j).writes (run.act j)).bind fun utxo => utxo.get id

/-- An entry that is written, and not cleared afterwards, is that of `FindUTXO` of the tip,
or a later call writes that one over it. -/
def WrittenOver (k : Nat) : Prop :=
  ∀ utxo, (run.state k).handlers.store.Scans decode utxo →
    ∀ id j, j < k → Uncleared run j k → entryAt run id j ≠ none →
      ∃ i, j ≤ i ∧ i < k ∧ entryAt run id i = utxo.get id ∧ utxo.get id ≠ none

theorem stepped {k : Nat} (hk : k < run.length) :
    Indexing.Stepped crypto decode (run.state k) (run.act k) (run.state (k + 1)) :=
  Indexing.step_eq_some (run.steps k hk)

theorem entryAt_of_clears {id : Bytes} {j : Nat} (h : (run.act j).Clears) :
    entryAt run id j = none := by
  obtain ⟨n, hact⟩ := h.exists_clear
  rw [entryAt, hact]
  rfl

/-- A call that has not begun, or has just begun, is cleared before it gets further. -/
theorem waits_or_clears {start n : Nat}
    (hstart : ∀ call, (run.state start).calls[n]? = some call → call = .begun) :
    ∀ k, start ≤ k → k ≤ run.length →
      (∀ call, (run.state k).calls[n]? = some call → call = .begun) ∨
        ∃ c, start ≤ c ∧ c < k ∧ run.act c = .clear n := by
  refine run.induct_from (.inl hstart) ?_
  rintro k hle hk (hwaits | ⟨c, hc, hlt, hclear⟩)
  · by_cases hclear : run.act k = .clear n
    · exact .inr ⟨k, hle, Nat.lt_succ_self k, hclear⟩
    · refine .inl fun call hcall => ?_
      cases hbefore : (run.state k).calls[n]? with
      | none => exact (stepped run hk).new_call hbefore hcall
      | some call₀ =>
          obtain ⟨call', hcall', hcallStep⟩ := (stepped run hk).call hbefore
          obtain rfl := hwaits call₀ hbefore
          rw [hcall] at hcall'
          cases hcall'
          generalize hact : run.act k = action at hcallStep hclear
          cases hcallStep with
          | same => rfl
          | clear => exact absurd rfl hclear
  · exact .inr ⟨c, hc, Nat.lt_succ_of_lt hlt, hclear⟩

/-- A call that has cleared the bucket scans the chain, and then writes what it found. -/
theorem scans_and_writes {start n : Nat}
    (hstart : (run.state start).calls[n]? = some .cleared) :
    ∀ k, start ≤ k → k ≤ run.length →
      (run.state k).calls[n]? = some .cleared ∨
      ∃ s utxo, start ≤ s ∧ s < k ∧ (run.state s).handlers.store.Scans decode utxo ∧
        ((run.state k).calls[n]? = some (.scanned utxo) ∨
          ((run.state k).calls[n]? = some .finished ∧
            ∃ j, s < j ∧ j < k ∧ (run.state j).writes (run.act j) = some utxo)) := by
  refine run.induct_from (.inl hstart) ?_
  rintro k hle hk (hcleared | ⟨s, utxo, hs, hlt, hscans, hscanned | ⟨hfinished, j, hj, hjk, hw⟩⟩)
  · obtain ⟨call', hcall', hcallStep⟩ := (stepped run hk).call hcleared
    generalize hact : run.act k = action at hcallStep
    cases hcallStep with
    | same => exact .inl hcall'
    | scan fuel utxo hscan =>
        exact .inr ⟨k, utxo, hle, Nat.lt_succ_self k, ⟨fuel, hscan⟩, .inl hcall'⟩
  · obtain ⟨call', hcall', hcallStep⟩ := (stepped run hk).call hscanned
    refine .inr ⟨s, utxo, hs, Nat.lt_succ_of_lt hlt, hscans, ?_⟩
    generalize hact : run.act k = action at hcallStep
    cases hcallStep with
    | same => exact .inl hcall'
    | write utxo hwrites =>
        exact .inr ⟨hcall', k, hlt, Nat.lt_succ_self k, by rw [hact, hwrites]⟩
  · obtain ⟨call', hcall', hcallStep⟩ := (stepped run hk).call hfinished
    refine .inr ⟨s, utxo, hs, Nat.lt_succ_of_lt hlt, hscans, .inr ⟨?_, j, hj, by omega, hw⟩⟩
    generalize run.act k = action at hcallStep
    cases hcallStep with
    | same => exact hcall'

theorem finished_of_idle {k n : Nat} (hidle : (run.state k).Idle) {call : ReindexCall}
    (hcall : (run.state k).calls[n]? = some call) : call = .finished := by
  have hfinished := List.all_eq_true.mp hidle call (List.mem_of_getElem? hcall)
  cases call with
  | finished => rfl
  | _ => cases hfinished

theorem calls_length_le {j k : Nat} (hle : j ≤ k) (hk : k ≤ run.length) :
    (run.state j).calls.length ≤ (run.state k).calls.length :=
  run.monotone (m := fun indexing => indexing.calls.length)
    (fun _ hi => (stepped run hi).length_le) hle hk

/-- A call that is there at some time is there later. -/
theorem exists_call {j k n : Nat} (hle : j ≤ k) (hk : k ≤ run.length)
    (hn : n < (run.state j).calls.length) : ∃ call, (run.state k).calls[n]? = some call :=
  ⟨_, List.getElem?_eq_getElem (Nat.lt_of_lt_of_le hn (calls_length_le run hle hk))⟩

/-- A call that has just begun is cleared before the calls are all finished. -/
theorem clears_of_idle {start k n : Nat} (hk : k ≤ run.length) (hidle : (run.state k).Idle)
    (hle : start ≤ k) (hstart : ∀ call, (run.state start).calls[n]? = some call → call = .begun)
    (hcall : ∃ call, (run.state k).calls[n]? = some call) :
    ∃ c, start ≤ c ∧ c < k ∧ run.act c = .clear n := by
  obtain ⟨call, hcall⟩ := hcall
  rcases waits_or_clears run hstart k hle hk with hwaits | hclears
  · have hbegun := hwaits call hcall
    rw [finished_of_idle run hidle hcall] at hbegun
    cases hbegun
  · exact hclears

theorem calls_of_clear {c n : Nat} (hc : c < run.length) (hclear : run.act c = .clear n) :
    (run.state (c + 1)).calls[n]? = some .cleared := by
  have hstep := stepped run hc
  generalize run.state (c + 1) = indexing at hstep
  rw [hclear] at hstep
  cases hstep with
  | clear _ hcall => exact List.getElem?_set_self (List.getElem?_eq_some_iff.mp hcall).1

/-- The chain from the tip stays as it is until the tip changes. -/
theorem scans_stays {s k : Nat} {utxo : Bucket}
    (hscans : (run.state s).handlers.store.Scans decode utxo)
    (hnone : ∀ t, s ≤ t → t < k → ¬ TipChanges run t) :
    ∀ i, s ≤ i → i ≤ run.length → i ≤ k → (run.state i).handlers.store.Scans decode utxo := by
  refine run.induct_from (fun _ => hscans) ?_
  intro i hle hi ih hik
  rcases (stepped run hi).scans (ih (by omega)) with hkept | htip
  · exact hkept
  · exact absurd htip (hnone i hle (by omega))

/-- The call that a change of the tip begins clears the bucket. -/
theorem clears_of_tipChanges {t k : Nat} (hk : k ≤ run.length) (hidle : (run.state k).Idle)
    (ht : t < k) (htip : TipChanges run t) :
    ∃ c, t < c ∧ c < k ∧ (run.act c).Clears := by
  have hbegun := (stepped run (show t < run.length by omega)).calls_of_changesTip htip
  have hnew : ∀ call, (run.state (t + 1)).calls[(run.state t).calls.length]? = some call →
      call = .begun := by
    intro call hnew
    rw [hbegun, List.getElem?_concat_length] at hnew
    exact (Option.some.inj hnew).symm
  obtain ⟨c, hc, hlt, hclear⟩ := clears_of_idle run hk hidle (show t + 1 ≤ k by omega) hnew
    (exists_call run (show t + 1 ≤ k by omega) hk (by rw [hbegun]; simp))
  exact ⟨c, by omega, hlt, by rw [hclear]; trivial⟩

/-- When all calls are finished, one that has scanned the chain of the tip has written
after the bucket was cleared for the last time. -/
theorem fresh_write {k : Nat} (hk : k ≤ run.length) (hidle : (run.state k).Idle)
    (hcalls : (run.state k).calls ≠ []) : ∃ c, c < k ∧ (run.act c).Clears ∧
      Uncleared run c k ∧ ∃ j utxo, c < j ∧ j < k ∧
        (run.state j).writes (run.act j) = some utxo ∧
        (run.state k).handlers.store.Scans decode utxo := by
  have hsome : ∃ c, c < k ∧ (run.act c).Clears := by
    have hstart : ∀ call, (run.state 0).calls[0]? = some call → call = .begun := by
      intro call hcall
      rw [run.starts] at hcall
      cases hcall
    have hcall : ∃ call, (run.state k).calls[0]? = some call :=
      ⟨_, List.getElem?_eq_getElem (List.length_pos_of_ne_nil hcalls)⟩
    obtain ⟨c, _, hlt, hclear⟩ := clears_of_idle run hk hidle (Nat.zero_le k) hstart hcall
    exact ⟨c, hlt, by rw [hclear]; trivial⟩
  obtain ⟨c, hc, hclears, hlast⟩ := Lib.exists_last hsome
  refine ⟨c, hc, hclears, hlast, ?_⟩
  obtain ⟨n, hclear⟩ := hclears.exists_clear
  have hcleared := calls_of_clear run (by omega) hclear
  obtain ⟨call, hcall⟩ := exists_call run (show c + 1 ≤ k by omega) hk
    (List.getElem?_eq_some_iff.mp hcleared).1
  have hfinished := finished_of_idle run hidle hcall
  subst hfinished
  rcases scans_and_writes run hcleared k (by omega) hk with
    hnot | ⟨s, utxo, hs, hlt, hscans, hnot | ⟨_, j, hj, hjk, hwrites⟩⟩
  · rw [hcall] at hnot
    cases hnot
  · rw [hcall] at hnot
    cases hnot
  · refine ⟨j, utxo, by omega, hjk, hwrites, ?_⟩
    refine scans_stays run hscans ?_ k (by omega) hk (Nat.le_refl k)
    intro t hst htk htip
    obtain ⟨c', hc', hlt', hclears'⟩ := clears_of_tipChanges run hk hidle htk htip
    exact hlast c' (by omega) hlt' hclears'

/-- What the bucket holds is what was written last after it was cleared. -/
theorem last_entry {c k : Nat} (hk : k ≤ run.length) (hc : c < k)
    (hclears : (run.act c).Clears) (hlast : Uncleared run c k) (id : Bytes) :
    ((run.state k).chainstate.get id = none ∧
      ∀ j, c < j → j < k → entryAt run id j = none) ∨
    ∃ j, c < j ∧ j < k ∧ entryAt run id j = (run.state k).chainstate.get id ∧
      entryAt run id j ≠ none ∧ ∀ i, j < i → i < k → entryAt run id i = none := by
  refine Lib.last_write (fun i => (run.state i).chainstate.get id) (entryAt run id) hc ?_ ?_
  · rw [(stepped run (by omega)).chainstate_of_clears hclears]
    rfl
  · intro i hci hik
    exact (stepped run (by omega)).chainstate_get (hlast i hci hik) id

theorem entryAt_of_calls {id : Bytes} {j : Nat} (h : (run.state j).calls = []) :
    entryAt run id j = none := by
  unfold entryAt Indexing.writes
  cases run.act j with
  | write n => simp [h]
  | _ => rfl

theorem calls_eq_nil {j k : Nat} (hle : j ≤ k) (hk : k ≤ run.length)
    (hcalls : (run.state k).calls = []) : (run.state j).calls = [] := by
  have hlength := calls_length_le run hle hk
  rw [hcalls] at hlength
  exact List.length_eq_zero_iff.mp (Nat.le_zero.mp hlength)

/-- Without a call of `Reindex` the bucket and the chain stay as they are. -/
theorem right_stays {k : Nat} (hk : k ≤ run.length) (hcalls : (run.state k).calls = [])
    (hright : (run.state 0).Right decode) : (run.state k).Right decode := by
  have hall : ∀ i, i ≤ run.length → i ≤ k → (run.state i).Right decode := by
    refine run.induct (fun _ => hright) ?_
    intro i hi ih hik
    obtain ⟨utxo, hscans, hget⟩ := ih (by omega)
    have hstart := calls_eq_nil run (show i ≤ k by omega) hk hcalls
    refine ⟨utxo, ?_, fun id => ?_⟩
    · rcases (stepped run hi).scans hscans with hkept | htip
      · exact hkept
      · have hbegun := (stepped run hi).calls_of_changesTip htip
        rw [calls_eq_nil run hik hk hcalls, hstart] at hbegun
        cases hbegun
    · have hentry : entryAt run id i = none := entryAt_of_calls run hstart
      rw [entryAt] at hentry
      rw [(stepped run hi).chainstate_get ((stepped run hi).not_clears hstart), hentry,
        Option.none_or, hget id]
  exact hall k hk (Nat.le_refl k)

theorem right_of_reindex {fuel : Nat} {mining : List Mining}
    (h : store.reindex decode fuel = some chainstate) :
    (⟨⟨store, mining⟩, chainstate, []⟩ : Indexing).Right decode := by
  obtain ⟨utxo, hscan, hget⟩ := BlockStore.reindex_get h
  exact ⟨utxo, ⟨fuel, hscan⟩, hget⟩

/-- When all calls of `Reindex` are finished, the bucket is right exactly when each entry
that was written, and not cleared, was right or was written over. -/
theorem right_iff_writtenOver {k : Nat} (hk : k ≤ run.length) (hidle : (run.state k).Idle)
    (hstart : (run.state 0).Right decode ∨ (run.state k).calls ≠ []) :
    (run.state k).Right decode ↔ WrittenOver run k := by
  by_cases hcalls : (run.state k).calls = []
  · refine iff_of_true (right_stays run hk hcalls (hstart.resolve_right (absurd hcalls))) ?_
    intro utxo _ id j hj _ hentry
    exact absurd (entryAt_of_calls run (calls_eq_nil run (Nat.le_of_lt hj) hk hcalls)) hentry
  · obtain ⟨c, hc, hclears, hlast, f, utxo, hcf, hfk, hwrites, hscans⟩ :=
      fresh_write run hk hidle hcalls
    have hfresh : ∀ id, entryAt run id f = utxo.get id := by
      intro id
      rw [entryAt, hwrites, Option.bind_some]
    constructor
    · rintro ⟨utxo', hscans', hright⟩ utxo'' hscans'' id j hj huncleared hentry
      rw [hscans'.unique hscans''] at hright
      have hcj : c < j := by
        by_contra hle
        rcases Nat.lt_or_eq_of_le (Nat.not_lt.mp hle) with hlt | rfl
        · exact huncleared c hlt hc hclears
        · exact hentry (entryAt_of_clears run hclears)
      rcases last_entry run hk hc hclears hlast id with
        ⟨_, hnone⟩ | ⟨i, _, hik, heq, hne, hafter⟩
      · exact absurd (hnone j hcj hj) hentry
      · have hji : j ≤ i := by
          by_contra hlt
          exact hentry (hafter j (Nat.not_le.mp hlt) hj)
        rw [← hright id, ← heq]
        exact ⟨i, hji, hik, rfl, hne⟩
    · intro hover
      refine ⟨utxo, hscans, fun id => ?_⟩
      rcases last_entry run hk hc hclears hlast id with
        ⟨hempty, hnone⟩ | ⟨i, hci, hik, heq, hne, hafter⟩
      · rw [hempty, ← hfresh, hnone f hcf hfk]
      · have huncleared : Uncleared run i k := fun t hit htk => hlast t (by omega) htk
        obtain ⟨t, hit, htk, hright, hsome⟩ := hover utxo hscans id i hik huncleared hne
        rcases Nat.lt_or_eq_of_le hit with hlt | rfl
        · rw [hafter t hlt htk] at hright
          exact absurd hright.symm hsome
        · rw [← heq, hright]

/-- What a call is about to write, it scanned. -/
theorem exists_scan {n : Nat} {utxo : Bucket} :
    ∀ k, k ≤ run.length → (run.state k).calls[n]? = some (.scanned utxo) →
      ∃ s fuel, s < k ∧ run.act s = .scan n fuel ∧
        (run.state s).handlers.store.Scans decode utxo := by
  refine run.induct ?_ ?_
  · intro hcall
    rw [run.starts] at hcall
    cases hcall
  · intro k hk ih hcall
    cases hbefore : (run.state k).calls[n]? with
    | none =>
        have hnew := (stepped run hk).new_call hbefore hcall
        cases hnew
    | some call =>
        obtain ⟨call', hcall', hcallStep⟩ := (stepped run hk).call hbefore
        rw [hcall] at hcall'
        cases hcall'
        generalize hact : run.act k = action at hcallStep
        cases hcallStep with
        | same =>
            obtain ⟨s, fuel, hs, hscan⟩ := ih hbefore
            exact ⟨s, fuel, Nat.lt_succ_of_lt hs, hscan⟩
        | scan fuel utxo hscan => exact ⟨k, fuel, Nat.lt_succ_self k, hact, fuel, hscan⟩

/-- What is written, and neither late nor cleared, is what `FindUTXO` returns for the tip. -/
theorem scans_of_writes {j k : Nat} (hk : k ≤ run.length) (hidle : (run.state k).Idle)
    (hjk : j < k) (huncleared : Uncleared run j k) (hlate : ¬ WritesLate run j) {utxo : Bucket}
    (hwrites : (run.state j).writes (run.act j) = some utxo) :
    (run.state k).handlers.store.Scans decode utxo := by
  obtain ⟨n, hact, hcall⟩ := Indexing.writes_eq_some hwrites
  obtain ⟨s, fuel, hsj, hscan, hscans⟩ := exists_scan run j (by omega) hcall
  refine scans_stays run hscans ?_ k (by omega) hk (Nat.le_refl k)
  intro t hst htk htip
  have hne : s ≠ t := by
    rintro rfl
    rw [TipChanges, hscan] at htip
    cases htip
  have hne' : t ≠ j := by
    rintro rfl
    rw [TipChanges, hact] at htip
    cases htip
  rcases Nat.lt_or_gt_of_ne hne' with hbefore | hafter
  · exact hlate ⟨n, fuel, s, t, hscan, by omega, htip, hbefore, hact⟩
  · obtain ⟨c, hc, hlt, hclears⟩ := clears_of_tipChanges run hk hidle htk htip
    exact huncleared c (by omega) hlt hclears

/-- When all calls of `Reindex` are finished, the bucket is right if it was cleared after
each write of a call that had scanned before the tip changed. -/
theorem index_right {k : Nat} (hk : k ≤ run.length) (hidle : (run.state k).Idle)
    (hstart : (run.state 0).Right decode ∨ (run.state k).calls ≠ [])
    (hcleared : LateCleared run k) : (run.state k).Right decode := by
  refine (right_iff_writtenOver run hk hidle hstart).mpr ?_
  intro utxo hscans id j hjk huncleared hentry
  have hlate : ¬ WritesLate run j := fun hlate => hcleared j hjk hlate huncleared
  obtain ⟨scanned, hwrites⟩ : ∃ scanned, (run.state j).writes (run.act j) = some scanned := by
    refine Option.ne_none_iff_exists'.mp fun hnone => hentry ?_
    rw [entryAt, hnone, Option.bind_none]
  have hsame := (scans_of_writes run hk hidle hjk huncleared hlate hwrites).unique hscans
  have hright : entryAt run id j = utxo.get id := by
    rw [entryAt, hwrites, Option.bind_some, hsame]
  exact ⟨j, Nat.le_refl j, hjk, hright, by rw [← hright]; exact hentry⟩

end Runs

section TwoCalls

/-! Two blocks come in, of which the second one spends the output of the genesis block. -/

def startBucket : Bucket :=
  (newStore.reindex (fun _ => none) 5).getD ∅

theorem startBucket_isSome : (newStore.reindex (fun _ => none) 5).isSome := by
  decide +kernel

theorem reindex_startBucket : newStore.reindex (fun _ => none) 5 = some startBucket := by
  obtain ⟨bucket, hbucket⟩ := Option.isSome_iff_exists.mp startBucket_isSome
  rw [startBucket, hbucket, Option.getD_some]

def genesisID : Bytes :=
  (((newStore.blocks.get newStore.last).map Block.transactions).getD []).flatMap (·.id)

def emptyBlock : Block := ⟨0, [], newStore.last, [1], 0, 1⟩

def spendingBlock : Block :=
  ⟨0, [⟨[9], [⟨genesisID, 0, [], []⟩], [⟨10, [8]⟩]⟩], [1], [2], 0, 2⟩

/-- The call for the first block writes after that for the second one. -/
def overtakenCalls : List IndexingAction :=
  [.handle (.addBlock emptyBlock) true, .clear 0, .scan 0 5,
    .handle (.addBlock spendingBlock) true, .clear 1, .scan 1 5, .write 1, .write 0]

/-- The calls are finished, and the spent output is in the bucket. -/
theorem overtakenCalls_ends :
    (Lib.exec (Indexing.step sumCrypto fun _ => none) ⟨⟨newStore, []⟩, startBucket, []⟩
      overtakenCalls).map (fun indexing => decide (indexing.handlers.mining.length = 0 ∧
        indexing.Idle ∧ (indexing.handlers.store.findUTXO (fun _ => none) 5).map
          (·.get genesisID) = some none ∧ (indexing.chainstate.get genesisID).isSome)) =
      some true := by
  decide +kernel

theorem index_stale : ¬ ∀ (crypto : Crypto) (decode : Bytes → Option Block)
    (store : BlockStore) (chainstate : Bucket)
    (run : IndexingRun crypto decode store chainstate), (run.state 0).Right decode →
    ∀ k, k ≤ run.length → (run.state k).handlers.mining = [] → (run.state k).Idle →
      (run.state k).Right decode := by
  intro hall
  obtain ⟨run, _, hends⟩ := Lib.Run.exists_of_exec overtakenCalls_ends
  obtain ⟨hmining, hidle, hscan, hheld⟩ := of_decide_eq_true hends
  obtain ⟨utxo, hscans, hget⟩ := hall sumCrypto (fun _ => none) newStore startBucket run
    (by rw [run.starts]; exact right_of_reindex reindex_startBucket) run.length (Nat.le_refl _)
    (List.length_eq_zero_iff.mp hmining) hidle
  obtain ⟨utxo', hutxo', hnone⟩ := Option.map_eq_some_iff.mp hscan
  have hsame : utxo' = utxo := BlockStore.Scans.unique ⟨5, hutxo'⟩ hscans
  rw [hget, ← hsame, hnone] at hheld
  cases hheld

/-- The call for the first block writes late, before the bucket is cleared once more. -/
def lateCalls : List IndexingAction :=
  [.handle (.addBlock emptyBlock) true, .clear 0, .scan 0 5,
    .handle (.addBlock spendingBlock) true, .write 0, .clear 1, .scan 1 5, .write 1]

theorem lateCalls_ends :
    (Lib.exec (Indexing.step sumCrypto fun _ => none) ⟨⟨newStore, []⟩, startBucket, []⟩
      lateCalls).map (fun indexing => decide indexing.Idle) = some true := by
  decide +kernel

theorem lateCalls_exec :
    (Lib.exec (Indexing.step sumCrypto fun _ => none) ⟨⟨newStore, []⟩, startBucket, []⟩
      lateCalls).isSome := by
  obtain ⟨indexing, hexec, _⟩ := Option.map_eq_some_iff.mp lateCalls_ends
  rw [hexec]
  rfl

def lateRun : IndexingRun sumCrypto (fun _ => none) newStore startBucket :=
  .ofActions lateCalls lateCalls_exec

theorem lateRun_idle : (lateRun.state 8).Idle := by
  have hends := lateCalls_ends
  rw [Lib.Run.ofActions_last lateCalls_exec] at hends
  exact of_decide_eq_true (Option.some.inj hends)

theorem lateRun_tipChanges : TipChanges lateRun 3 := by
  change HandlerAction.changesTip _ _ (.addBlock spendingBlock) = true
  decide +kernel

theorem lateRun_writesLate : WritesLate lateRun 4 :=
  ⟨0, 5, 2, 3, rfl, by decide, lateRun_tipChanges, by decide, rfl⟩

theorem lateRun_lateCleared : LateCleared lateRun 8 := by
  rintro j hj ⟨n, fuel, s, t, hscan, hst, _, htj, hwrite⟩ huncleared
  rcases Nat.lt_or_ge j 5 with hbefore | hafter
  · exact huncleared 5 hbefore (by decide) trivial
  · obtain rfl | rfl | rfl : j = 5 ∨ j = 6 ∨ j = 7 := by omega
    · cases hwrite
    · cases hwrite
    · -- the last write follows its scan at once
      obtain rfl : 1 = n := IndexingAction.write.inj hwrite
      obtain rfl | rfl | rfl | rfl | rfl | rfl :
          s = 0 ∨ s = 1 ∨ s = 2 ∨ s = 3 ∨ s = 4 ∨ s = 5 := by omega
      all_goals cases hscan

theorem index_right_late : WritesLate lateRun 4 ∧ (lateRun.state 8).Right fun _ => none :=
  ⟨lateRun_writesLate, index_right lateRun (Nat.le_refl 8) lateRun_idle
    (.inl (right_of_reindex reindex_startBucket)) lateRun_lateCleared⟩

end TwoCalls

end BlockchainTutorial.Bitcoin
