import Mathlib.Logic.Relation
import Mathlib.Data.Nat.Init

namespace BlockchainTutorial.Lib

universe u v

/-! A loop whose turns fail, end it, or leave a record of what they did. -/

inductive Turn (σ : Type u) (α : Type v) where
  | stop
  | last (record : α) (s : σ)
  | next (record : α) (s : σ)

namespace Turn

variable {σ : Type u} {α : Type v}

def isStop : Turn σ α → Bool
  | stop => true
  | last _ _ => false
  | next _ _ => false

/-- The state in which the loop goes on. -/
def target : Turn σ α → Option σ
  | stop => none
  | last _ _ => none
  | next _ s => some s

theorem isStop_iff {turn : Turn σ α} : turn.isStop = true ↔ turn = stop := by
  cases turn <;> simp [isStop]

theorem target_eq_some {turn : Turn σ α} {s : σ} :
    turn.target = some s ↔ ∃ record, turn = next record s := by
  cases turn <;> simp [target]

end Turn

inductive Outcome (σ : Type u) (α : Type v) where
  | failed
  | unfinished
  | returned (records : List α) (s : σ)

namespace Outcome

variable {σ : Type u} {α : Type v}

def cons (record : α) : Outcome σ α → Outcome σ α
  | failed => failed
  | unfinished => unfinished
  | returned records s => returned (record :: records) s

theorem cons_eq_returned {record : α} {outcome : Outcome σ α} {records : List α} {s : σ} :
    outcome.cons record = returned records s ↔
      ∃ rest, records = record :: rest ∧ outcome = returned rest s := by
  cases outcome with
  | failed => simp [cons]
  | unfinished => simp [cons]
  | returned rest final =>
      constructor
      · intro h
        cases h
        exact ⟨rest, rfl, rfl⟩
      · rintro ⟨_, rfl, hrest⟩
        cases hrest
        rfl

end Outcome

section Loop

variable {σ : Type u} {α : Type v} (turn : σ → Option (Turn σ α))

def loop : Nat → σ → Outcome σ α
  | 0, _ => .unfinished
  | fuel + 1, s =>
      match turn s with
      | none => .failed
      | some .stop => .returned [] s
      | some (.last record s) => .returned [record] s
      | some (.next record s) => (loop fuel s).cons record

inductive Returns : σ → List α → σ → Prop
  | stop {s : σ} (hturn : turn s = some .stop) : Returns s [] s
  | last {s s' : σ} {record : α} (hturn : turn s = some (.last record s')) :
      Returns s [record] s'
  | next {s s' final : σ} {record : α} {records : List α}
      (hturn : turn s = some (.next record s')) (hrest : Returns s' records final) :
      Returns s (record :: records) final

/-- The loop goes on from one state in the other. -/
def GoesOn (s s' : σ) : Prop :=
  ∃ record, turn s = some (.next record s')

theorem goesOn_iff {s s' : σ} : GoesOn turn s s' ↔ (turn s).bind Turn.target = some s' := by
  simp only [GoesOn, Option.bind_eq_some_iff, Turn.target_eq_some]
  constructor
  · rintro ⟨record, hturn⟩
    exact ⟨_, hturn, record, rfl⟩
  · rintro ⟨_, hturn, record, rfl⟩
    exact ⟨record, hturn⟩

variable {turn}

theorem returns_of_loop {fuel : Nat} {s final : σ} {records : List α}
    (h : loop turn fuel s = .returned records final) : Returns turn s records final := by
  induction fuel generalizing s records with
  | zero => cases h
  | succ fuel ih =>
      unfold loop at h
      split at h
      · cases h
      · rename_i hturn
        cases h
        exact .stop hturn
      · rename_i hturn
        cases h
        exact .last hturn
      · rename_i hturn
        obtain ⟨rest, rfl, hrest⟩ := Outcome.cons_eq_returned.mp h
        exact .next hturn (ih hrest)

theorem Returns.exists_loop {s final : σ} {records : List α}
    (h : Returns turn s records final) : ∃ fuel, loop turn fuel s = .returned records final := by
  induction h with
  | stop hturn => exact ⟨1, by simp only [loop, hturn]⟩
  | last hturn => exact ⟨1, by simp only [loop, hturn]⟩
  | next hturn _ ih =>
      obtain ⟨fuel, hloop⟩ := ih
      refine ⟨fuel + 1, ?_⟩
      simp only [loop, hturn, hloop]
      rfl

/-- With enough fuel the loop returns what the rules say. -/
theorem loop_returned_iff {s final : σ} {records : List α} :
    (∃ fuel, loop turn fuel s = .returned records final) ↔ Returns turn s records final := by
  constructor
  · rintro ⟨fuel, h⟩
    exact returns_of_loop h
  · intro h
    exact h.exists_loop

section Inversion

variable {s s' final : σ} {record : α} {records : List α}

theorem not_returns_of_none (h : turn s = none) : ¬ Returns turn s records final := by
  intro hreturns
  cases hreturns with
  | stop hturn => cases h.symm.trans hturn
  | last hturn => cases h.symm.trans hturn
  | next hturn _ => cases h.symm.trans hturn

theorem returns_stop_iff (h : turn s = some .stop) :
    Returns turn s records final ↔ records = [] ∧ final = s := by
  constructor
  · intro hreturns
    cases hreturns with
    | stop _ => exact ⟨rfl, rfl⟩
    | last hturn => cases h.symm.trans hturn
    | next hturn _ => cases h.symm.trans hturn
  · rintro ⟨rfl, rfl⟩
    exact .stop h

theorem returns_last_iff (h : turn s = some (.last record s')) :
    Returns turn s records final ↔ records = [record] ∧ final = s' := by
  constructor
  · intro hreturns
    cases hreturns with
    | stop hturn => cases h.symm.trans hturn
    | last hturn =>
        cases h.symm.trans hturn
        exact ⟨rfl, rfl⟩
    | next hturn _ => cases h.symm.trans hturn
  · rintro ⟨rfl, rfl⟩
    exact .last h

theorem returns_next_iff (h : turn s = some (.next record s')) :
    Returns turn s records final ↔
      ∃ rest, records = record :: rest ∧ Returns turn s' rest final := by
  constructor
  · intro hreturns
    cases hreturns with
    | stop hturn => cases h.symm.trans hturn
    | last hturn => cases h.symm.trans hturn
    | next hturn hrest =>
        cases h.symm.trans hturn
        exact ⟨_, rfl, hrest⟩
  · rintro ⟨rest, rfl, hrest⟩
    exact .next h hrest

end Inversion

section Reached

variable {I Fits : σ → Prop} {Right : σ → List α → σ → Prop} {s : σ}

theorem forall_reached_of_ends (h : ∀ s', ¬ GoesOn turn s s') :
    (∀ s', Relation.ReflTransGen (GoesOn turn) s s' → Fits s') ↔ Fits s := by
  constructor
  · intro hall
    exact hall s .refl
  · intro hfits s' hreach
    rcases Relation.ReflTransGen.cases_head hreach with rfl | ⟨next, hnext, _⟩
    · exact hfits
    · exact absurd hnext (h next)

theorem forall_reached_of_next {next : σ} {record : α}
    (h : turn s = some (.next record next)) :
    (∀ s', Relation.ReflTransGen (GoesOn turn) s s' → Fits s') ↔
      Fits s ∧ ∀ s', Relation.ReflTransGen (GoesOn turn) next s' → Fits s' := by
  constructor
  · intro hall
    refine ⟨hall s .refl, ?_⟩
    intro s' hreach
    exact hall s' (.head ⟨record, h⟩ hreach)
  · rintro ⟨hfits, hall⟩ s' hreach
    rcases Relation.ReflTransGen.cases_head hreach with rfl | ⟨other, ⟨_, hother⟩, hreach⟩
    · exact hfits
    · rw [h] at hother
      cases hother
      exact hall s' hreach

/-- Where each turn is right exactly when its state fits, the loop returns and is right
exactly when all states that it comes to fit. -/
theorem exists_returns_iff (measure : σ → Nat)
    (hkeeps : ∀ {s s' record}, I s → turn s = some (.next record s') → I s')
    (hless : ∀ {s s' record}, I s → turn s = some (.next record s') → measure s' < measure s)
    (hfails : ∀ {s}, I s → turn s = none → ¬ Fits s)
    (hstop : ∀ {s}, I s → turn s = some .stop → (Right s [] s ↔ Fits s))
    (hlast : ∀ {s s' record}, I s → turn s = some (.last record s') →
      (Right s [record] s' ↔ Fits s))
    (hnext : ∀ {s s' final record records}, I s → turn s = some (.next record s') →
      Returns turn s' records final →
        (Right s (record :: records) final ↔ Fits s ∧ Right s' records final))
    (h : I s) :
    (∃ records final, Returns turn s records final ∧ Right s records final) ↔
      ∀ s', Relation.ReflTransGen (GoesOn turn) s s' → Fits s' := by
  induction hmeasure : measure s using Nat.strong_induction_on generalizing s with
  | _ n ih =>
      subst hmeasure
      cases hturn : turn s with
      | none =>
          refine iff_of_false ?_ fun hall => hfails h hturn (hall s .refl)
          rintro ⟨records, final, hreturns, _⟩
          exact not_returns_of_none hturn hreturns
      | some action =>
          cases action with
          | stop =>
              rw [forall_reached_of_ends (by simp [GoesOn, hturn]), ← hstop h hturn]
              simp only [returns_stop_iff hturn, and_assoc, exists_and_left, exists_eq_left]
          | last record s' =>
              rw [forall_reached_of_ends (by simp [GoesOn, hturn]), ← hlast h hturn]
              simp only [returns_last_iff hturn, and_assoc, exists_and_left, exists_eq_left]
          | next record s' =>
              rw [forall_reached_of_next hturn, ← ih _ (hless h hturn) (hkeeps h hturn) rfl]
              simp only [returns_next_iff hturn]
              constructor
              · rintro ⟨_, final, ⟨records, rfl, hrest⟩, hright⟩
                obtain ⟨hfits, hright⟩ := (hnext h hturn hrest).mp hright
                exact ⟨hfits, records, final, hrest, hright⟩
              · rintro ⟨hfits, records, final, hrest, hright⟩
                exact ⟨record :: records, final, ⟨records, rfl, hrest⟩,
                  (hnext h hturn hrest).mpr ⟨hfits, hright⟩⟩

end Reached

end Loop

end BlockchainTutorial.Lib
