import Mathlib.Data.List.GetD
import Mathlib.Data.Nat.Init

namespace BlockchainTutorial.Lib

universe u v

variable {σ : Type u} {α : Type v}

/-! Finite runs of a partial step function. A run keeps every state it visits,
so that a property of a whole run is a property of its indexes. -/

structure Run (init : σ) (step : σ → α → Option σ) where
  length : Nat
  state : Nat → σ
  act : Nat → α
  starts : state 0 = init
  steps : ∀ k, k < length → step (state k) (act k) = some (state (k + 1))

namespace Run

variable {init : σ} {step : σ → α → Option σ}

theorem induct (run : Run init step) {P : Nat → Prop} (hzero : P 0)
    (hsucc : ∀ k, k < run.length → P k → P (k + 1)) :
    ∀ k, k ≤ run.length → P k := by
  intro k hk
  induction k with
  | zero => exact hzero
  | succ k ih => exact hsucc k (by omega) (ih (by omega))

theorem induct_strong (run : Run init step) {P : Nat → Prop} (hzero : P 0)
    (hsucc : ∀ k, k < run.length → (∀ j, j ≤ k → P j) → P (k + 1)) :
    ∀ k, k ≤ run.length → P k := by
  intro k hk
  induction k using Nat.strong_induction_on with
  | _ k ih =>
      cases k with
      | zero => exact hzero
      | succ k => exact hsucc k (by omega) fun j hj => ih j (by omega) (by omega)

theorem invariant (run : Run init step) {P : σ → Prop} (hinit : P init)
    (hstep : ∀ s a s', P s → step s a = some s' → P s') :
    ∀ k, k ≤ run.length → P (run.state k) := by
  refine run.induct (by rw [run.starts]; exact hinit) ?_
  intro k hk ih
  exact hstep _ _ _ ih (run.steps k hk)

theorem induct_from (run : Run init step) {P : Nat → Prop} {start : Nat}
    (hstart : P start)
    (hsucc : ∀ k, start ≤ k → k < run.length → P k → P (k + 1)) :
    ∀ k, start ≤ k → k ≤ run.length → P k := by
  intro k hstartk
  induction k, hstartk using Nat.le_induction with
  | base => exact fun _ => hstart
  | succ k hle ih => exact fun hk => hsucc k hle (by omega) (ih (by omega))

def AllSteps (run : Run init step) (ok : σ → α → Prop) : Prop :=
  ∀ k, k < run.length → ok (run.state k) (run.act k)

instance (run : Run init step) (ok : σ → α → Prop) [∀ s a, Decidable (ok s a)] :
    Decidable (run.AllSteps ok) :=
  inferInstanceAs (Decidable (∀ k, k < run.length → ok (run.state k) (run.act k)))

theorem monotone (run : Run init step) {m : σ → Nat}
    (hstep : ∀ k, k < run.length → m (run.state k) ≤ m (run.state (k + 1))) :
    ∀ {first last : Nat}, first ≤ last → last ≤ run.length →
      m (run.state first) ≤ m (run.state last) := by
  intro first last hle hlast
  refine run.induct_from (P := fun k => m (run.state first) ≤ m (run.state k))
    (Nat.le_refl _) ?_ last hle hlast
  intro k _ hk ih
  exact Nat.le_trans ih (hstep k hk)

def Before (run : Run init step) (k : Nat) (event : σ → α → Prop) : Prop :=
  ∃ j, j < k ∧ j < run.length ∧ event (run.state j) (run.act j)

theorem Before.mono {run : Run init step} {k l : Nat} {event : σ → α → Prop}
    (h : run.Before k event) (hle : k ≤ l) : run.Before l event := by
  obtain ⟨j, hj, hlength, hevent⟩ := h
  exact ⟨j, by omega, hlength, hevent⟩

theorem Before.now {run : Run init step} {k : Nat} {event : σ → α → Prop}
    (hk : k < run.length) (h : event (run.state k) (run.act k)) :
    run.Before (k + 1) event :=
  ⟨k, by omega, hk, h⟩

end Run

theorem exists_last {p : Nat → Prop} {k : Nat} (h : ∃ j, j < k ∧ p j) :
    ∃ j, j < k ∧ p j ∧ ∀ i, j < i → i < k → ¬ p i := by
  induction k with
  | zero =>
      obtain ⟨j, hj, _⟩ := h
      omega
  | succ k ih =>
      by_cases hk : p k
      · exact ⟨k, Nat.lt_succ_self k, hk, fun i hi hlt _ => by omega⟩
      · have hbefore : ∃ j, j < k ∧ p j := by
          obtain ⟨j, hj, hp⟩ := h
          rcases Nat.lt_succ_iff_lt_or_eq.mp hj with hlt | rfl
          · exact ⟨j, hlt, hp⟩
          · exact absurd hp hk
        obtain ⟨j, hj, hp, hlast⟩ := ih hbefore
        refine ⟨j, by omega, hp, fun i hi hlt => ?_⟩
        rcases Nat.lt_succ_iff_lt_or_eq.mp hlt with hlt | rfl
        · exact hlast i hi hlt
        · exact hk

/-- A place that is empty at first and written over and over holds what was written last. -/
theorem last_write {β : Type*} (held wrote : Nat → Option β) {start k : Nat}
    (hle : start ≤ k) (hstart : held start = none)
    (hstep : ∀ i, start ≤ i → i < k → held (i + 1) = (wrote i).or (held i)) :
    (held k = none ∧ ∀ j, start ≤ j → j < k → wrote j = none) ∨
      ∃ j, start ≤ j ∧ j < k ∧ wrote j = held k ∧ wrote j ≠ none ∧
        ∀ i, j < i → i < k → wrote i = none := by
  induction k, hle using Nat.le_induction with
  | base => exact .inl ⟨hstart, fun j hj hlt => by omega⟩
  | succ k hle ih =>
      have hread := hstep k hle (Nat.lt_succ_self k)
      cases hwrote : wrote k with
      | some b =>
          rw [hwrote, Option.some_or] at hread
          exact .inr ⟨k, hle, Nat.lt_succ_self k, hwrote.trans hread.symm,
            by rw [hwrote]; exact Option.some_ne_none b, fun i hi hlt => by omega⟩
      | none =>
          rw [hwrote, Option.none_or] at hread
          have hlast : ∀ i, i < k + 1 → (i < k → wrote i = none) → wrote i = none := by
            intro i hi hbefore
            rcases Nat.lt_succ_iff_lt_or_eq.mp hi with hlt | rfl
            · exact hbefore hlt
            · exact hwrote
          rw [hread]
          rcases ih fun i hi hlt => hstep i hi (Nat.lt_succ_of_lt hlt) with
            ⟨hnone, hall⟩ | ⟨j, hj, hlt, heq, hne, hall⟩
          · exact .inl ⟨hnone, fun i hi hlt => hlast i hlt (hall i hi)⟩
          · exact .inr ⟨j, hj, Nat.lt_succ_of_lt hlt, heq, hne,
              fun i hi hlt => hlast i hlt (hall i hi)⟩

/-! Runs given by a list of actions. -/

def exec (step : σ → α → Option σ) : σ → List α → Option σ
  | s, [] => some s
  | s, a :: rest => (step s a).bind fun s' => exec step s' rest

/-- `check` holds of every state visited while the actions are taken, and all
of them can be taken. -/
def checkStates (step : σ → α → Option σ) (check : σ → Bool) : σ → List α → Bool
  | s, [] => check s
  | s, a :: rest =>
      check s && match step s a with
        | some s' => checkStates step check s' rest
        | none => false

theorem exec_append (step : σ → α → Option σ) (s : σ) (front back : List α) :
    exec step s (front ++ back) =
      (exec step s front).bind fun s' => exec step s' back := by
  induction front generalizing s with
  | nil => rfl
  | cons a rest ih =>
      simp only [List.cons_append, exec]
      cases step s a with
      | none => rfl
      | some s' => exact ih s'

theorem exec_take_isSome {step : σ → α → Option σ} {s : σ} {acts : List α}
    (h : (exec step s acts).isSome) (k : Nat) :
    (exec step s (acts.take k)).isSome := by
  rw [← List.take_append_drop k acts, exec_append] at h
  cases hfront : exec step s (acts.take k) with
  | none => simp [hfront] at h
  | some _ => rfl

theorem exec_isSome_of_checkStates {step : σ → α → Option σ} {check : σ → Bool}
    {s : σ} {acts : List α} (h : checkStates step check s acts = true) :
    (exec step s acts).isSome := by
  induction acts generalizing s with
  | nil => rfl
  | cons a rest ih =>
      simp only [checkStates, Bool.and_eq_true] at h
      cases hstep : step s a with
      | none => simp [hstep] at h
      | some s' =>
          simp only [exec, hstep, Option.bind_some]
          exact ih (by simpa [hstep] using h.2)

theorem check_of_checkStates {step : σ → α → Option σ} {check : σ → Bool}
    {s s' : σ} {acts : List α} (h : checkStates step check s acts = true)
    (k : Nat) (hk : exec step s (acts.take k) = some s') : check s' = true := by
  induction acts generalizing s k with
  | nil =>
      obtain rfl : s = s' := by simpa [exec] using hk
      exact h
  | cons a rest ih =>
      simp only [checkStates, Bool.and_eq_true] at h
      cases k with
      | zero =>
          obtain rfl : s = s' := by simpa [exec] using hk
          exact h.1
      | succ k =>
          cases hstep : step s a with
          | none => simp [hstep] at h
          | some next =>
              refine ih (s := next) (by simpa [hstep] using h.2) k ?_
              simpa [exec, hstep] using hk

namespace Run

variable {init : σ} {step : σ → α → Option σ}

def ofActions [Inhabited α] (acts : List α) (h : (exec step init acts).isSome) :
    Run init step where
  length := acts.length
  state k := (exec step init (acts.take k)).getD init
  act k := acts.getD k default
  starts := rfl
  steps k hk := by
    obtain ⟨s, hs⟩ := Option.isSome_iff_exists.mp (exec_take_isSome h k)
    obtain ⟨s', hs'⟩ := Option.isSome_iff_exists.mp (exec_take_isSome h (k + 1))
    have hlast : exec step s [acts[k]] = some s' := by
      rw [List.take_succ_eq_append_getElem hk, exec_append, hs] at hs'
      simpa using hs'
    rw [hs, hs', List.getD_eq_getElem _ _ hk]
    cases hstep : step s acts[k] with
    | none => simp [exec, hstep] at hlast
    | some next => simpa [exec, hstep] using hlast

theorem ofActions_state [Inhabited α] {acts : List α}
    (h : (exec step init acts).isSome) (k : Nat) :
    exec step init (acts.take k) = some ((ofActions acts h).state k) := by
  obtain ⟨s, hs⟩ := Option.isSome_iff_exists.mp (exec_take_isSome h k)
  simp [ofActions, hs]

theorem ofActions_last [Inhabited α] {acts : List α}
    (h : (exec step init acts).isSome) :
    exec step init acts = some ((ofActions acts h).state acts.length) := by
  simpa using ofActions_state h acts.length

theorem ofActions_check [Inhabited α] {acts : List α} {check : σ → Bool}
    (hcheck : checkStates step check init acts = true) (k : Nat) :
    check ((ofActions acts (exec_isSome_of_checkStates hcheck)).state k) = true :=
  check_of_checkStates hcheck k (ofActions_state _ k)

/-- The run that takes the actions, and what is read off its last state. -/
theorem exists_of_exec [Inhabited α] {β : Type*} {acts : List α} {read : σ → β} {b : β}
    (h : (exec step init acts).map read = some b) :
    ∃ run : Run init step, run.length = acts.length ∧ read (run.state run.length) = b := by
  obtain ⟨s, hs, hread⟩ := Option.map_eq_some_iff.mp h
  have hsome : (exec step init acts).isSome := by
    rw [hs]
    rfl
  have hlast := ofActions_last hsome
  rw [hs, Option.some.injEq] at hlast
  exact ⟨ofActions acts hsome, rfl, hlast ▸ hread⟩

/-- The run that takes the actions and then one more. -/
theorem exists_of_exec_last [Inhabited α] {acts : List α} {last : α} {s s' : σ}
    (h : exec step init acts = some s) (hlast : step s last = some s') :
    ∃ run : Run init step, run.length = acts.length + 1 ∧ run.state acts.length = s ∧
      run.act acts.length = last ∧ run.state (acts.length + 1) = s' := by
  have hexec : exec step init (acts ++ [last]) = some s' := by
    rw [exec_append, h, Option.bind_some, exec, hlast]
    rfl
  have hsome : (exec step init (acts ++ [last])).isSome := by
    rw [hexec]
    rfl
  refine ⟨ofActions (acts ++ [last]) hsome, List.length_append, ?_, ?_, ?_⟩
  · have hstate := ofActions_state hsome acts.length
    rw [List.take_left, h, Option.some.injEq] at hstate
    exact hstate.symm
  · simp [ofActions]
  · have hstate := ofActions_last hsome
    rw [hexec, Option.some.injEq, List.length_append] at hstate
    exact hstate.symm

end Run

end BlockchainTutorial.Lib
