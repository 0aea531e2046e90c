import Mathlib.Tactic.Ring
import BlockchainTutorial.Fabric.Stub
import BlockchainTutorial.Lib.Decimal
import BlockchainTutorial.Lib.Run

namespace BlockchainTutorial.Fabric.ExampleCc

open Lib (atoi itoa)

/-! `example_cc.go`. What is stored is the decimal text of a holding. -/

abbrev Ledger := WorldState String

/-- A transaction ends with an error, or with a panic of the chaincode. -/
inductive Failure where
  | error (message : String)
  | panic
  deriving DecidableEq

structure Response where
  writes : List (Write String)
  payload : Option String
  deriving DecidableEq

/-- An index out of range is a panic. -/
def argument (args : List String) (i : Nat) : Except Failure String :=
  match args[i]? with
  | some arg => .ok arg
  | none => .error .panic

def expectInt (text message : String) : Except Failure (BitVec 64) :=
  match (atoi text).2 with
  | none => .ok (atoi text).1
  | some _ => .error (.error message)

def putState (key : String) (value : BitVec 64) : Except Failure (Write String) :=
  if key = "" then .error (.error "key must not be an empty string")
  else .ok (.simple key, some (itoa value))

def putBoth (A : String) (Aval : BitVec 64) (B : String) (Bval : BitVec 64) :
    Except Failure Response := do
  let first ← putState A Aval
  let second ← putState B Bval
  .ok ⟨[first, second], none⟩

def init (args : List String) : Except Failure Response := do
  let A ← argument args 0
  let Aval ← expectInt (← argument args 1) "Expecting integer value for asset holding"
  let B ← argument args 2
  let Bval ← expectInt (← argument args 3) "Expecting integer value for asset holding"
  putBoth A Aval B Bval

section Functions

variable (ledger : Ledger)

/-- The errors of the stored texts are not looked at. Both texts are read before a write. -/
def move : List String → Except Failure Response
  | [A, B, x] =>
      match ledger.get (.simple A) with
      | none => .error (.error "Entity not found")
      | some Avalbytes =>
          match ledger.get (.simple B) with
          | none => .error (.error "Entity not found")
          | some Bvalbytes => do
              let X ← expectInt x "Invalid transaction amount, expecting a integer value"
              putBoth A ((atoi Avalbytes).1 - X) B ((atoi Bvalbytes).1 + X)
  | _ => .error (.error ("Incorrect number of arguments. Expecting 4, function followed by " ++
      "2 names and 1 value"))

def delete : List String → Except Failure Response
  | [A] => .ok ⟨[(.simple A, none)], none⟩
  | _ => .error (.error "Incorrect number of arguments. Expecting 1")

def query : List String → Except Failure Response
  | [A] =>
      match ledger.get (.simple A) with
      | none => .error (.error ("\x7b\"Error\":\"Nil amount for " ++ A ++ "\"\x7d"))
      | some Avalbytes => .ok ⟨[], some Avalbytes⟩
  | _ => .error (.error "Incorrect number of arguments. Expecting name of the person to query")

/-- The message of the last error reads the first argument. -/
def invoke (function : String) (args : List String) : Except Failure Response :=
  if function = "delete" then delete args
  else if function = "query" then query ledger args
  else if function = "move" then move ledger args
  else do
    let first ← argument args 0
    .error (.error ("Unknown action, check the first argument, must be one of 'delete', " ++
      "'query', or 'move'. But got: " ++ first))

end Functions

inductive Transaction where
  | init (args : List String)
  | invoke (function : String) (args : List String)
  deriving Inhabited

def execute (ledger : Ledger) : Transaction → Except Failure Response
  | .init args => init args
  | .invoke function args => invoke ledger function args

def step (ledger : Ledger) (tx : Transaction) : Option Ledger :=
  match execute ledger tx with
  | .ok response => some (commit ledger response.writes)
  | .error _ => none

/-! What a transaction that succeeds has done. -/

theorem bind_eq_ok {α β : Type} {x : Except Failure α} {f : α → Except Failure β} {b : β}
    (h : (x >>= f) = .ok b) : ∃ a, x = .ok a ∧ f a = .ok b := by
  cases x with
  | error failure => cases h
  | ok a => exact ⟨a, rfl, h⟩

theorem argument_eq_ok {args : List String} {i : Nat} {arg : String}
    (h : argument args i = .ok arg) : args[i]? = some arg := by
  unfold argument at h
  cases harg : args[i]? with
  | none => rw [harg] at h; cases h
  | some found => rw [harg] at h; cases h; rfl

theorem expectInt_eq_ok {text message : String} {value : BitVec 64}
    (h : expectInt text message = .ok value) : atoi text = (value, none) := by
  unfold expectInt at h
  cases herror : (atoi text).2 with
  | none => rw [herror] at h; cases h; exact Prod.ext rfl herror
  | some error => rw [herror] at h; cases h

theorem putState_eq_ok {key : String} {value : BitVec 64} {write : Write String}
    (h : putState key value = .ok write) : write = (.simple key, some (itoa value)) := by
  unfold putState at h
  split at h
  · cases h
  · cases h
    rfl

theorem putBoth_eq_ok {A B : String} {Aval Bval : BitVec 64} {response : Response}
    (h : putBoth A Aval B Bval = .ok response) :
    response = ⟨[(.simple A, some (itoa Aval)), (.simple B, some (itoa Bval))], none⟩ := by
  obtain ⟨first, hfirst, h⟩ := bind_eq_ok h
  obtain ⟨second, hsecond, h⟩ := bind_eq_ok h
  cases putState_eq_ok hfirst
  cases putState_eq_ok hsecond
  cases h
  rfl

def wrote (ledger : Ledger) (A : String) (Aval : BitVec 64) (B : String) (Bval : BitVec 64) :
    Ledger :=
  (ledger.set (.simple A) (some (itoa Aval))).set (.simple B) (some (itoa Bval))

theorem init_eq_ok {args : List String} {response : Response} (h : init args = .ok response) :
    ∃ A aval B bval rest Aval Bval, args = A :: aval :: B :: bval :: rest ∧
      atoi aval = (Aval, none) ∧ atoi bval = (Bval, none) ∧
      putBoth A Aval B Bval = .ok response := by
  obtain ⟨A, hA, h₁⟩ := bind_eq_ok h
  obtain ⟨aval, haval, h₂⟩ := bind_eq_ok h₁
  obtain ⟨Aval, hAval, h₃⟩ := bind_eq_ok h₂
  obtain ⟨B, hB, h₄⟩ := bind_eq_ok h₃
  obtain ⟨bval, hbval, h₅⟩ := bind_eq_ok h₄
  obtain ⟨Bval, hBval, hput⟩ := bind_eq_ok h₅
  clear h h₁ h₂ h₃ h₄ h₅
  obtain ⟨rest, rfl⟩ : ∃ rest, args = A :: aval :: B :: bval :: rest := by
    have hfour := argument_eq_ok hbval
    obtain ⟨hlength, _⟩ := List.getElem?_eq_some_iff.mp hfour
    obtain ⟨A', aval', B', bval', rest, rfl⟩ :
        ∃ A' aval' B' bval' rest, args = A' :: aval' :: B' :: bval' :: rest := by
      match args, hlength with
      | A' :: aval' :: B' :: bval' :: rest, _ => exact ⟨A', aval', B', bval', rest, rfl⟩
    cases argument_eq_ok hA
    cases argument_eq_ok haval
    cases argument_eq_ok hB
    cases hfour
    exact ⟨rest, rfl⟩
  exact ⟨A, aval, B, bval, rest, Aval, Bval, rfl, expectInt_eq_ok hAval, expectInt_eq_ok hBval,
    hput⟩

theorem move_eq_ok {ledger : Ledger} {args : List String} {response : Response}
    (h : move ledger args = .ok response) :
    ∃ A B x X Avalbytes Bvalbytes, args = [A, B, x] ∧
      ledger.get (.simple A) = some Avalbytes ∧ ledger.get (.simple B) = some Bvalbytes ∧
      atoi x = (X, none) ∧
      putBoth A ((atoi Avalbytes).1 - X) B ((atoi Bvalbytes).1 + X) = .ok response := by
  unfold move at h
  split at h
  · rename_i A B x
    split at h
    · cases h
    · rename_i Avalbytes hA
      split at h
      · cases h
      · rename_i Bvalbytes hB
        obtain ⟨X, hX, h⟩ := bind_eq_ok h
        exact ⟨A, B, x, X, Avalbytes, Bvalbytes, rfl, hA, hB, expectInt_eq_ok hX, h⟩
  · cases h

theorem step_cases {ledger ledger' : Ledger} {tx : Transaction}
    (h : step ledger tx = some ledger') :
    (∃ A aval B bval rest Aval Bval, tx = .init (A :: aval :: B :: bval :: rest) ∧
      atoi aval = (Aval, none) ∧ atoi bval = (Bval, none) ∧
      ledger' = wrote ledger A Aval B Bval) ∨
    (∃ A B x X Avalbytes Bvalbytes, tx = .invoke "move" [A, B, x] ∧
      ledger.get (.simple A) = some Avalbytes ∧ ledger.get (.simple B) = some Bvalbytes ∧
      atoi x = (X, none) ∧
      ledger' = wrote ledger A ((atoi Avalbytes).1 - X) B ((atoi Bvalbytes).1 + X)) ∨
    (∃ A, tx = .invoke "delete" [A] ∧ ledger' = ledger.set (.simple A) none) ∨
    (∃ A, tx = .invoke "query" [A] ∧ ledger' = ledger) := by
  unfold step at h
  cases hexecute : execute ledger tx with
  | error failure => rw [hexecute] at h; cases h
  | ok response =>
      rw [hexecute] at h
      cases h
      cases tx with
      | init args =>
          obtain ⟨A, aval, B, bval, rest, Aval, Bval, rfl, hAval, hBval, hput⟩ :=
            init_eq_ok hexecute
          cases putBoth_eq_ok hput
          exact .inl ⟨A, aval, B, bval, rest, Aval, Bval, rfl, hAval, hBval, rfl⟩
      | invoke function args =>
          simp only [execute, invoke] at hexecute
          split at hexecute
          · rename_i hfunction
            subst hfunction
            unfold delete at hexecute
            split at hexecute
            · cases hexecute
              exact .inr (.inr (.inl ⟨_, rfl, rfl⟩))
            · cases hexecute
          · split at hexecute
            · rename_i hfunction
              subst hfunction
              unfold query at hexecute
              split at hexecute
              · split at hexecute
                · cases hexecute
                · cases hexecute
                  exact .inr (.inr (.inr ⟨_, rfl, rfl⟩))
              · cases hexecute
            · split at hexecute
              · rename_i hfunction
                subst hfunction
                obtain ⟨A, B, x, X, Avalbytes, Bvalbytes, rfl, hA, hB, hX, hput⟩ :=
                  move_eq_ok hexecute
                cases putBoth_eq_ok hput
                exact .inr (.inl ⟨A, B, x, X, Avalbytes, Bvalbytes, rfl, hA, hB, hX, rfl⟩)
              · obtain ⟨first, _, herror⟩ := bind_eq_ok hexecute
                cases herror

/-! The holdings of all entities together. -/

def amount : Option String → BitVec 64
  | none => 0
  | some text => (atoi text).1

def holding (ledger : Ledger) (entity : String) : BitVec 64 :=
  amount (ledger.get (.simple entity))

def holdings (ledger : Ledger) : BitVec 64 :=
  ledger.total fun _ => amount

/-- What a transaction that succeeds adds to the holdings. A move between two entities adds
nothing. An entity that moves to itself keeps the second amount that is written. -/
def brought (ledger : Ledger) : Transaction → BitVec 64
  | .init (A :: aval :: B :: bval :: _) =>
      if A = B then (atoi bval).1 - holding ledger A
      else (atoi aval).1 - holding ledger A + ((atoi bval).1 - holding ledger B)
  | .invoke "move" [A, B, x] => if A = B then (atoi x).1 else 0
  | .invoke "delete" [A] => -holding ledger A
  | _ => 0

section Holdings

variable {ledger ledger' : Ledger}

theorem holdings_set (ledger : Ledger) (entity : String) (value : Option String) :
    holdings (ledger.set (.simple entity) value) =
      holdings ledger + (amount value - holding ledger entity) := by
  have hset := Lib.Mapping.total_set (fun _ => amount) ledger (.simple entity) value rfl
  rw [holdings, holding, ← add_sub_assoc]
  exact eq_sub_of_add_eq hset

@[simp] theorem amount_itoa (value : BitVec 64) : amount (some (itoa value)) = value := by
  rw [amount, Lib.atoi_itoa]

theorem holdings_wrote_of_ne (ledger : Ledger) {A B : String} (hne : A ≠ B)
    (Aval Bval : BitVec 64) :
    holdings (wrote ledger A Aval B Bval) =
      holdings ledger + (Aval - holding ledger A + (Bval - holding ledger B)) := by
  have hother : holding (ledger.set (.simple A) (some (itoa Aval))) B = holding ledger B := by
    rw [holding, Lib.Mapping.get_set_of_ne ledger _ (fun h => hne (Key.simple.inj h).symm)]
    rfl
  rw [wrote, holdings_set, holdings_set, hother, amount_itoa, amount_itoa, add_assoc]

theorem holdings_wrote_self (ledger : Ledger) (A : String) (Aval Bval : BitVec 64) :
    holdings (wrote ledger A Aval A Bval) = holdings ledger + (Bval - holding ledger A) := by
  have hself : holding (ledger.set (.simple A) (some (itoa Aval))) A = Aval := by
    rw [holding, Lib.Mapping.get_set_self, amount_itoa]
  rw [wrote, holdings_set, holdings_set, hself, amount_itoa, amount_itoa, add_assoc]
  ring

theorem holdings_step {tx : Transaction} (h : step ledger tx = some ledger') :
    holdings ledger' = holdings ledger + brought ledger tx := by
  rcases step_cases h with ⟨A, aval, B, bval, rest, Aval, Bval, rfl, hAval, hBval, rfl⟩ |
    ⟨A, B, x, X, Avalbytes, Bvalbytes, rfl, hA, hB, hX, rfl⟩ | ⟨A, rfl, rfl⟩ | ⟨A, rfl, rfl⟩
  · rw [brought, hAval, hBval]
    split
    · rename_i hsame
      subst hsame
      exact holdings_wrote_self _ _ _ _
    · rename_i hne
      exact holdings_wrote_of_ne _ hne _ _
  · rw [brought, hX]
    have hAval : holding ledger A = (atoi Avalbytes).1 := by rw [holding, hA, amount]
    have hBval : holding ledger B = (atoi Bvalbytes).1 := by rw [holding, hB, amount]
    split
    · rename_i hsame
      subst hsame
      rw [holdings_wrote_self, hBval]
      ring
    · rename_i hne
      rw [holdings_wrote_of_ne _ hne, hAval, hBval]
      ring
  · rw [holdings_set, brought, amount, zero_sub]
  · exact (add_zero _).symm

/-! Every text that is stored is the text of a number. -/

def Written (ledger : Ledger) : Prop :=
  ∀ key text, ledger.get key = some text → ∃ number, text = itoa number

theorem Written.set (h : Written ledger) (key : Key) {value : Option String}
    (hvalue : ∀ text, value = some text → ∃ number, text = itoa number) :
    Written (Lib.Mapping.set ledger key value) :=
  fun other =>
    Lib.Mapping.forall_get_set (P := fun value : Option String =>
      ∀ text, value = some text → ∃ number, text = itoa number) h hvalue other

theorem Written.wrote (h : Written ledger) (A : String) (Aval : BitVec 64) (B : String)
    (Bval : BitVec 64) : Written (ExampleCc.wrote ledger A Aval B Bval) := by
  refine (h.set _ ?_).set _ ?_
  · rintro text ⟨⟩
    exact ⟨Aval, rfl⟩
  · rintro text ⟨⟩
    exact ⟨Bval, rfl⟩

theorem Written.step (h : Written ledger) {tx : Transaction}
    (hstep : ExampleCc.step ledger tx = some ledger') : Written ledger' := by
  rcases step_cases hstep with ⟨A, _, B, _, _, Aval, Bval, _, _, _, rfl⟩ |
    ⟨A, B, _, X, _, _, _, _, _, _, rfl⟩ | ⟨A, _, rfl⟩ | ⟨A, _, rfl⟩
  · exact h.wrote _ _ _ _
  · exact h.wrote _ _ _ _
  · exact h.set _ (fun _ hnone => nomatch hnone)
  · exact h

end Holdings

theorem written_run (run : Lib.Run (∅ : Ledger) step) :
    ∀ k, k ≤ run.length → Written (run.state k) :=
  run.invariant (fun _ _ hnone => nomatch hnone) fun _ _ _ h hstep => h.step hstep

/-- In every run each stored text is that of a number, so no error of it is dropped, and what
the entities hold together is what the transactions have brought, modulo two to the 64. -/
theorem holdings_run (run : Lib.Run (∅ : Ledger) step) :
    (∀ key text, (run.state run.length).get key = some text →
      ∃ number, text = itoa number ∧ atoi text = (number, none)) ∧
      holdings (run.state run.length) =
        ((List.range run.length).map fun k => brought (run.state k) (run.act k)).sum := by
  constructor
  · intro key text hget
    obtain ⟨number, rfl⟩ := written_run run run.length (Nat.le_refl _) key text hget
    exact ⟨number, rfl, Lib.atoi_itoa number⟩
  · refine run.induct (P := fun k => holdings (run.state k) =
      ((List.range k).map fun i => brought (run.state i) (run.act i)).sum) ?_ ?_
      run.length (Nat.le_refl _)
    · rw [run.starts]
      rfl
    · intro k hk ih
      rw [holdings_step (run.steps k hk), ih, List.range_succ, List.map_append,
        List.sum_append, List.map_singleton, List.sum_singleton]

end BlockchainTutorial.Fabric.ExampleCc
