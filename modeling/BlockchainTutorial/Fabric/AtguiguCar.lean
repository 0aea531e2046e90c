import BlockchainTutorial.Fabric.RangeQuery
import BlockchainTutorial.Lib.Run

namespace BlockchainTutorial.Fabric.AtguiguCar

/-! `atguigucar.go`. What is stored is the car that the JSON text stands for. -/

structure Car where
  make : String
  model : String
  colour : String
  owner : String
  deriving DecidableEq

open Lib.Json (quote object) in
def Car.marshal (car : Car) : List Char :=
  object [("make", quote car.make), ("model", quote car.model), ("colour", quote car.colour),
    ("owner", quote car.owner)]

abbrev Ledger := WorldState Car

structure Response where
  writes : List (Write Car)
  payload : Option (List Char)
  deriving DecidableEq

/-- The error of `PutState` for an empty key is not looked at. -/
def putState (key : String) (car : Car) : List (Write Car) :=
  if key = "" then [] else [(.simple key, some car)]

def initialCars : List Car :=
  [⟨"丰田", "普莱斯", "蓝色", "佟老师"⟩, ⟨"福特", "野马", "红色", "宋老师"⟩,
    ⟨"现代", "途胜", "绿色", "沈老师"⟩, ⟨"大众", "帕萨特", "黄色", "韩老师"⟩,
    ⟨"特斯拉", "S", "黑色", "武老师"⟩, ⟨"劳斯莱斯", "幻影", "紫色", "左老师"⟩]

def carKey (i : Nat) : String :=
  "CAR" ++ i.repr

/-- The loop over the cars, with the index of the first one. -/
def writeCars : List Car → Nat → List (Write Car)
  | [], _ => []
  | car :: cars, i => putState (carKey i) car ++ writeCars cars (i + 1)

def initLedger : Except String Response :=
  .ok ⟨writeCars initialCars 0, none⟩

def createCar : List String → Except String Response
  | [key, make, model, colour, owner] => .ok ⟨putState key ⟨make, model, colour, owner⟩, none⟩
  | _ => .error "Incorrect number of arguments. Expecting 5"

section Functions

variable (ledger : Ledger)

def queryCar : List String → Except String Response
  | [key] => .ok ⟨[], (ledger.get (.simple key)).map Car.marshal⟩
  | _ => .error "Incorrect number of arguments. Expecting 1"

def queryAllCars : Except String Response :=
  .ok ⟨[], some (queryAll Car.marshal ledger "CAR0" "CAR999")⟩

/-- The error for a text that is not there is not looked at either. -/
def changeCarOwner : List String → Except String Response
  | [key, owner] =>
      let car := (ledger.get (.simple key)).getD ⟨"", "", "", ""⟩
      .ok ⟨putState key { car with owner := owner }, none⟩
  | _ => .error "Incorrect number of arguments. Expecting 2"

def invoke (function : String) (args : List String) : Except String Response :=
  if function = "queryCar" then queryCar ledger args
  else if function = "initLedger" then initLedger
  else if function = "createCar" then createCar args
  else if function = "queryAllCars" then queryAllCars ledger
  else if function = "changeCarOwner" then changeCarOwner ledger args
  else .error "Invalid Smart Contract function name."

end Functions

/-- The name of the function, and its arguments. -/
abbrev Transaction := String × List String

def step (ledger : Ledger) (tx : Transaction) : Option Ledger :=
  match invoke ledger tx.1 tx.2 with
  | .ok response => some (commit ledger response.writes)
  | .error _ => none

/-! The text of a car. -/

theorem Car.marshal_inj {car car' : Car} (h : car.marshal = car'.marshal) : car = car' := by
  simp only [marshal, Lib.Json.object, List.map_cons, List.map_nil,
    List.intercalate_cons_cons, List.intercalate_singleton, List.append_assoc,
    List.cons_append, List.nil_append] at h
  obtain ⟨hmake, h⟩ := Lib.Json.field_append_inj (List.cons.inj h).2
  obtain ⟨hmodel, h⟩ := Lib.Json.field_append_inj (List.cons.inj h).2
  obtain ⟨hcolour, h⟩ := Lib.Json.field_append_inj (List.cons.inj h).2
  obtain ⟨howner, _⟩ := Lib.Json.field_append_inj (List.cons.inj h).2
  cases car
  cases car'
  simp_all

/-! What the transactions make of one key. -/

/-- The car of the list that is written under the key. -/
def carUnder (key : String) (cars : List Car) (i : Nat) : Option Car :=
  ((cars.zipIdx i).find? fun entry => carKey entry.2 = key).map Prod.fst

/-- Nothing is stored under the empty key. -/
def register (key : String) (car : Option Car) : Transaction → Option Car
  | ("initLedger", _) => (carUnder key initialCars 0).or car
  | ("createCar", [created, make, model, colour, owner]) =>
      if created = key ∧ key ≠ "" then some ⟨make, model, colour, owner⟩ else car
  | ("changeCarOwner", [changed, owner]) =>
      if changed = key ∧ key ≠ "" then
        some { car.getD ⟨"", "", "", ""⟩ with owner := owner }
      else car
  | _ => car

section Step

variable {ledger ledger' : Ledger}

theorem get_putState (ledger : Ledger) (key changed : String) (car : Car) :
    (commit ledger (putState changed car)).get (.simple key) =
      if changed = key ∧ key ≠ "" then some car else ledger.get (.simple key) := by
  unfold putState
  by_cases heq : changed = key
  · subst heq
    by_cases hkey : changed = ""
    · rw [if_pos hkey, if_neg fun h => h.2 hkey]
      rfl
    · rw [if_neg hkey, if_pos ⟨rfl, hkey⟩]
      exact Lib.Mapping.get_set_self _ _ _
  · rw [if_neg (c := changed = key ∧ key ≠ "") fun h => heq h.1]
    refine get_commit_of_not_mem ledger fun write hwrite => ?_
    split at hwrite
    · cases hwrite
    · rw [List.mem_singleton.mp hwrite]
      exact fun hsame => heq (Key.simple.inj hsame)

theorem carKey_inj {i j : Nat} (h : carKey i = carKey j) : i = j := by
  have hrepr := congrArg String.toList ((String.append_right_inj "CAR").mp h)
  have hread := congrArg (fun digits => Nat.ofDigitChars 10 digits 0) hrepr
  simpa only [Nat.toList_repr, Nat.ofDigitChars_ten_toDigits] using hread

theorem carKey_ne_empty (i : Nat) : carKey i ≠ "" := by
  intro h
  have hlength := congrArg String.length h
  rw [carKey, String.length_append] at hlength
  exact absurd hlength (by simp)

theorem carUnder_carKey {cars : List Car} {i j : Nat} (h : i < j) :
    carUnder (carKey i) cars j = none := by
  rw [carUnder, Option.map_eq_none_iff, List.find?_eq_none]
  rintro ⟨car, k⟩ hmem
  have hle := (List.mem_zipIdx hmem).1
  simp only [decide_eq_true_eq]
  intro heq
  have hsame := carKey_inj heq
  omega

theorem get_writeCars (ledger : Ledger) (key : String) (cars : List Car) (i : Nat) :
    (commit ledger (writeCars cars i)).get (.simple key) =
      (carUnder key cars i).or (ledger.get (.simple key)) := by
  induction cars generalizing ledger i with
  | nil => rfl
  | cons car cars ih =>
      rw [writeCars, commit_append, ih, get_putState]
      by_cases hcar : carKey i = key
      · subst hcar
        rw [carUnder_carKey (Nat.lt_succ_self i), Option.none_or,
          if_pos ⟨rfl, carKey_ne_empty i⟩, carUnder, List.zipIdx_cons,
          List.find?_cons_of_pos (by simp)]
        rfl
      · rw [if_neg fun h => hcar h.1, carUnder, carUnder, List.zipIdx_cons,
          List.find?_cons_of_neg (by simpa using hcar)]

theorem step_cases {tx : Transaction} (h : step ledger tx = some ledger') :
    (∃ args, tx = ("initLedger", args) ∧ ledger' = commit ledger (writeCars initialCars 0)) ∨
    (∃ key make model colour owner, tx = ("createCar", [key, make, model, colour, owner]) ∧
      ledger' = commit ledger (putState key ⟨make, model, colour, owner⟩)) ∨
    (∃ key owner, tx = ("changeCarOwner", [key, owner]) ∧
      ledger' = commit ledger (putState key
        { (ledger.get (.simple key)).getD ⟨"", "", "", ""⟩ with owner := owner })) ∨
    (∃ args, tx = ("queryCar", args) ∧ ledger' = ledger) ∨
    (∃ args, tx = ("queryAllCars", args) ∧ ledger' = ledger) := by
  obtain ⟨function, args⟩ := tx
  unfold step at h
  cases hinvoke : invoke ledger function args with
  | error message => rw [hinvoke] at h; cases h
  | ok response =>
      rw [hinvoke] at h
      cases h
      unfold invoke at hinvoke
      split at hinvoke
      · rename_i hfunction
        subst hfunction
        unfold queryCar at hinvoke
        split at hinvoke
        · cases hinvoke
          exact .inr (.inr (.inr (.inl ⟨_, rfl, rfl⟩)))
        · cases hinvoke
      split at hinvoke
      · rename_i hfunction
        subst hfunction
        cases hinvoke
        exact .inl ⟨args, rfl, rfl⟩
      split at hinvoke
      · rename_i hfunction
        subst hfunction
        unfold createCar at hinvoke
        split at hinvoke
        · cases hinvoke
          exact .inr (.inl ⟨_, _, _, _, _, rfl, rfl⟩)
        · cases hinvoke
      split at hinvoke
      · rename_i hfunction
        subst hfunction
        cases hinvoke
        exact .inr (.inr (.inr (.inr ⟨args, rfl, rfl⟩)))
      split at hinvoke
      · rename_i hfunction
        subst hfunction
        unfold changeCarOwner at hinvoke
        split at hinvoke
        · cases hinvoke
          exact .inr (.inr (.inl ⟨_, _, rfl, rfl⟩))
        · cases hinvoke
      · cases hinvoke

theorem get_step {tx : Transaction} (h : step ledger tx = some ledger') (key : String) :
    ledger'.get (.simple key) = register key (ledger.get (.simple key)) tx := by
  rcases step_cases h with ⟨args, rfl, rfl⟩ | ⟨created, make, model, colour, owner, rfl, rfl⟩ |
    ⟨changed, owner, rfl, rfl⟩ | ⟨args, rfl, rfl⟩ | ⟨args, rfl, rfl⟩
  · exact get_writeCars ledger key initialCars 0
  · exact get_putState ledger key created _
  · rw [get_putState, register]
    by_cases hchanged : changed = key
    · rw [hchanged]
    · rw [if_neg fun h => hchanged h.1, if_neg fun h => hchanged h.1]
  · rfl
  · rfl

end Step

/-- What the transactions have made of the key. -/
def registered (run : Lib.Run (∅ : Ledger) step) (key : String) : Option Car :=
  (List.range run.length).foldl (fun car k => register key car (run.act k)) none

theorem get_run (run : Lib.Run (∅ : Ledger) step) (key : String) :
    (run.state run.length).get (.simple key) = registered run key := by
  refine run.induct (P := fun k => (run.state k).get (.simple key) =
    (List.range k).foldl (fun car i => register key car (run.act i)) none) ?_ ?_
    run.length (Nat.le_refl _)
  · rw [run.starts]
    rfl
  · intro k hk ih
    rw [get_step (run.steps k hk), ih, List.range_succ, List.foldl_append, List.foldl_cons,
      List.foldl_nil]

/-- The cars do not touch each other: `queryCar` answers with what the transactions that name
the key have made of it, and the answer is that of no other car. The answer of `queryAllCars`
has the cars with a key from `CAR0` on and before `CAR999`, each once and in the order of the
keys. -/
theorem cars_run (run : Lib.Run (∅ : Ledger) step) :
    (∀ key, queryCar (run.state run.length) [key] =
      .ok ⟨[], (registered run key).map Car.marshal⟩) ∧
    (∀ key car, queryCar (run.state run.length) [key] = .ok ⟨[], some car.marshal⟩ ↔
      registered run key = some car) ∧
    ∃ entries : List (String × Car),
      queryAllCars (run.state run.length) = .ok ⟨[], some (Lib.Json.array
        (entries.map fun entry => row Car.marshal entry.1 entry.2))⟩ ∧
      (entries.Pairwise fun first second => first.1 < second.1) ∧
      ∀ key car, (key, car) ∈ entries ↔
        "CAR0" ≤ key ∧ key < "CAR999" ∧ registered run key = some car := by
  have hlists := lists_getStateByRange (run.state run.length) "CAR0" "CAR999"
  have hquery : ∀ key, queryCar (run.state run.length) [key] =
      .ok ⟨[], (registered run key).map Car.marshal⟩ := fun key => by rw [queryCar, get_run]
  refine ⟨hquery, fun key car => ?_, _, by rw [queryAllCars, queryAll_eq],
    hlists.ordered, fun key car => ?_⟩
  · rw [hquery, Except.ok.injEq, Response.mk.injEq, Option.map_eq_some_iff]
    constructor
    · rintro ⟨_, found, hfound, hsame⟩
      rw [hfound, Car.marshal_inj hsame]
    · exact fun hcar => ⟨rfl, car, hcar, rfl⟩
  · rw [hlists.mem_iff, get_run]

end BlockchainTutorial.Fabric.AtguiguCar
