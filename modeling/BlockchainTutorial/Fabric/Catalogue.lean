import BlockchainTutorial.Fabric.BookManager
import BlockchainTutorial.Fabric.RangeQuery
import BlockchainTutorial.Lib.Decimal
import BlockchainTutorial.Lib.Simulation

namespace BlockchainTutorial.Fabric.BookManager

/-! All functions of `bookmanager.go`. Next to the records there can be the list of names that
`createBook` keeps. -/

inductive Value where
  | record (value : Record)
  | names (value : List String)
  deriving DecidableEq

/-- An array is no record, and a record is no array. -/
def Value.record? : Value → Option Record
  | .record value => some value
  | .names _ => none

def Value.names? : Value → Option (List String)
  | .record _ => none
  | .names value => some value

section Marshal

open Lib.Json (array object quote)

def Book.marshal (book : Book) : List Char :=
  object [("name", quote book.name), ("author", quote book.author),
    ("price", book.price.repr.toList), ("borrower", quote book.borrower),
    ("borrowhistory", array (book.borrowHistory.map quote))]

/-- The entries of a map come in the order of their keys. -/
def marshalBooks : Option (AList fun _ : String => Int) → List Char
  | none => "null".toList
  | some books =>
      object ((books.entries.map fun entry => (entry.1, entry.2.repr.toList)).insertionSort
        fun first second => first.1 ≤ second.1)

def Group.marshal : Group → List Char
  | .admin => ['0']
  | .borrower => ['1']

def User.marshal (user : User) : List Char :=
  object [("name", quote user.name), ("group", user.group.marshal),
    ("books", marshalBooks user.books)]

/-- A list that nothing was appended to is nil. -/
def BookList.marshal (list : BookList) : List Char :=
  object [("booklist", if list.bookList = [] then "null".toList
    else array (list.bookList.map quote))]

def Value.marshal : Value → List Char
  | .record (.user value) => value.marshal
  | .record (.book value) => value.marshal
  | .record (.bookList value) => value.marshal
  | .names value => array (value.map quote)

end Marshal

abbrev Catalogue := WorldState Value

structure Response where
  writes : List (Write Value)
  payload : Option (List Char)
  deriving DecidableEq

def putValue (key : String) (value : Value) : List (Write Value) :=
  if key = "" then [] else [(.simple key, some value)]

def recordWrites (writes : List (Write Record)) : List (Write Value) :=
  writes.map fun write => (write.1, write.2.map .record)

namespace Catalogue

/-- Where a record is read, an array is an error like a text that is not there. -/
def records (catalogue : Catalogue) : Ledger :=
  catalogue.mapValues fun value => value.bind Value.record?

def written (result : Except Failure (List (Write Record))) : Except Failure Response :=
  result.map fun writes => ⟨recordWrites writes, none⟩

section Functions

variable (catalogue : Catalogue)

def queryBook : List String → Except Failure Response
  | [key] => .ok ⟨[], (catalogue.get (.simple key)).map Value.marshal⟩
  | _ => .error (.error "Incorrect number of arguments. Expecting 1")

def createBook : List String → Except Failure Response
  | [role, name, author, price] =>
      if role = "Borrower" then .error (.error "Borrower cannot create books.")
      else
        match (Lib.atoi price).2 with
        | some _ => .error (.error "Price must be number.")
        | none =>
            match (catalogue.get (.simple "booklist")).bind Value.names? with
            | none => .error (.error "Json Unmarshal Error!")
            | some booklist =>
                .ok ⟨putValue name (.record (.book ⟨name, author, (Lib.atoi price).1.toInt, "",
                    []⟩)) ++ putValue "booklist" (.names (booklist ++ [name])), none⟩
  | _ => .error (.error "Incorrect number of arguments. Expecting 5")

def queryAllBooks : Except Failure Response :=
  .ok ⟨[], some (queryAll Value.marshal catalogue "BOOK0" "BOOK999")⟩

def invoke (function : String) (args : List String) : Except Failure Response :=
  if function = "queryBook" then queryBook catalogue args
  else if function = "initLedger" then written initLedger
  else if function = "createBook" then createBook catalogue args
  else if function = "queryAllBooks" then queryAllBooks catalogue
  else if function = "borrowBook" then written (borrowBook catalogue.records args)
  else if function = "userRegister" then written (userRegister args)
  else if function = "returnBook" then written (returnBook catalogue.records args)
  else .error (.error "Invalid Smart Contract function name.")

end Functions

def step (catalogue : Catalogue) (call : String × List String) : Option Catalogue :=
  match invoke catalogue call.1 call.2 with
  | .ok response => some (commit catalogue response.writes)
  | .error _ => none

/-! What is stored are the records of a run without `createBook` and the queries. -/

def Mirrors (catalogue : Catalogue) (ledger : Ledger) : Prop :=
  ∀ key, catalogue.get key = (ledger.get key).map Value.record

theorem records_get (catalogue : Catalogue) (key : Key) :
    catalogue.records.get key = (catalogue.get key).bind Value.record? :=
  Lib.Mapping.get_mapValues (f := fun value : Option Value => value.bind Value.record?) rfl
    catalogue key

section Mirrors

variable {catalogue catalogue' : Catalogue} {ledger : Ledger}

theorem Mirrors.records (h : Mirrors catalogue ledger) (key : Key) :
    catalogue.records.get key = ledger.get key := by
  rw [records_get, h key]
  cases ledger.get key with
  | none => rfl
  | some record => rfl

theorem Mirrors.commit (h : Mirrors catalogue ledger) (writes : List (Write Record)) :
    Mirrors (Fabric.commit catalogue (recordWrites writes)) (Fabric.commit ledger writes) := by
  induction writes generalizing catalogue ledger with
  | nil => exact h
  | cons write writes ih =>
      have hnext : Mirrors (catalogue.set write.1 (write.2.map .record))
          (ledger.set write.1 write.2) := by
        intro key
        by_cases hkey : key = write.1
        · rw [hkey, Lib.Mapping.get_set_self, Lib.Mapping.get_set_self]
        · rw [Lib.Mapping.get_set_of_ne _ _ hkey, Lib.Mapping.get_set_of_ne _ _ hkey]
          exact h key
      exact ih hnext

theorem borrowBook_congr {ledger' : Ledger} (h : ∀ key, ledger.get key = ledger'.get key)
    (args : List String) : borrowBook ledger args = borrowBook ledger' args := by
  unfold borrowBook
  simp only [h]

theorem returnBook_congr {ledger' : Ledger} (h : ∀ key, ledger.get key = ledger'.get key)
    (args : List String) : returnBook ledger args = returnBook ledger' args := by
  unfold returnBook
  simp only [h]

theorem createBook_fails (h : Mirrors catalogue ledger) (args : List String)
    (response : Response) : createBook catalogue args ≠ .ok response := by
  have hnone : (catalogue.get (.simple "booklist")).bind Value.names? = none := by
    rw [h]
    cases ledger.get (.simple "booklist") with
    | none => rfl
    | some record => rfl
  intro hok
  unfold createBook at hok
  split at hok
  · rw [hnone] at hok
    split at hok
    · cases hok
    · split at hok <;> cases hok
  · cases hok

theorem written_eq_ok {result : Except Failure (List (Write Record))} {response : Response}
    (h : written result = .ok response) :
    ∃ writes, result = .ok writes ∧ response = ⟨recordWrites writes, none⟩ := by
  cases result with
  | error failure => cases h
  | ok writes => cases h; exact ⟨writes, rfl, rfl⟩

theorem Mirrors.written (h : Mirrors catalogue ledger) {tx : Transaction} {response : Response}
    (hok : Catalogue.written (BookManager.invoke ledger tx) = .ok response) :
    ∃ ledger', BookManager.step ledger tx = some ledger' ∧
      Mirrors (Fabric.commit catalogue response.writes) ledger' := by
  obtain ⟨writes, hinvoke, rfl⟩ := written_eq_ok hok
  exact ⟨_, by rw [BookManager.step, hinvoke], h.commit writes⟩

theorem Mirrors.step (h : Mirrors catalogue ledger) {call : String × List String}
    (hstep : Catalogue.step catalogue call = some catalogue') :
    Mirrors catalogue' ledger ∨
      ∃ tx ledger', BookManager.step ledger tx = some ledger' ∧ Mirrors catalogue' ledger' := by
  obtain ⟨function, args⟩ := call
  unfold Catalogue.step at hstep
  cases hinvoke : invoke catalogue function args with
  | error failure => rw [hinvoke] at hstep; cases hstep
  | ok response =>
      rw [hinvoke] at hstep
      cases hstep
      unfold invoke at hinvoke
      split at hinvoke
      · unfold queryBook at hinvoke
        split at hinvoke
        · cases hinvoke
          exact .inl h
        · cases hinvoke
      split at hinvoke
      · exact .inr ⟨.initLedger, h.written hinvoke⟩
      split at hinvoke
      · exact absurd hinvoke (createBook_fails h args response)
      split at hinvoke
      · cases hinvoke
        exact .inl h
      split at hinvoke
      · rw [borrowBook_congr h.records] at hinvoke
        exact .inr ⟨.borrowBook args, h.written hinvoke⟩
      split at hinvoke
      · exact .inr ⟨.userRegister args, h.written hinvoke⟩
      split at hinvoke
      · rw [returnBook_congr h.records] at hinvoke
        exact .inr ⟨.returnBook args, h.written hinvoke⟩
      · cases hinvoke

end Mirrors

theorem mirrors_run (run : Lib.Run (∅ : Catalogue) step) :
    ∃ (ledgers : Lib.Run (∅ : Ledger) BookManager.step) (shown : Nat → Nat),
      ledgers.AllSteps (fun _ _ => True) ∧ Lib.Shows Mirrors run ledgers run.length shown :=
  run.simulate (fun _ => rfl) fun k hk _ hmirrors => by
    rcases hmirrors.step (run.steps k hk) with hsame | ⟨tx, ledger, hmove, hnext⟩
    · exact .inl hsame
    · exact .inr ⟨tx, ledger, trivial, hmove, hnext⟩

/-! Where the books are. -/

def bookKeys : List String :=
  "BookList" :: initialBooks.map Book.name

def Placed (ledger : Ledger) : Prop :=
  ∀ key record, ledger.get (.simple key) = some record →
    (∃ user, record = .user user) ∨ key ∈ bookKeys

theorem bookKeys_out_of_range : ∀ key ∈ bookKeys, ¬ ("BOOK0" ≤ key ∧ key < "BOOK999") := by
  decide

theorem Placed.commit {ledger : Ledger} (h : Placed ledger) {writes : List (Write Record)}
    (hwrites : ∀ key record, (Key.simple key, some record) ∈ writes →
      (∃ user, record = .user user) ∨ key ∈ bookKeys) :
    Placed (Fabric.commit ledger writes) := by
  induction writes generalizing ledger with
  | nil => exact h
  | cons write writes ih =>
      have hnext : Placed (ledger.set write.1 write.2) := by
        intro key record hget
        by_cases hkey : Key.simple key = write.1
        · rw [hkey, Lib.Mapping.get_set_self] at hget
          refine hwrites key record ?_
          rw [hkey, ← hget]
          exact List.mem_cons_self
        · rw [Lib.Mapping.get_set_of_ne _ _ hkey] at hget
          exact h key record hget
      exact ih hnext fun key record hmem => hwrites key record (List.mem_cons_of_mem _ hmem)

theorem placed_run (run : Lib.Run (∅ : Ledger) BookManager.step) :
    ∀ k, k ≤ run.length → Untouched (run.state k) ∧ Placed (run.state k) := by
  have hempty : Placed ∅ := fun _ _ hnone => nomatch hnone
  refine run.invariant (P := fun ledger => Untouched ledger ∧ Placed ledger)
    ⟨untouched_empty, hempty⟩ ?_
  rintro ledger tx ledger' ⟨huntouched, hplaced⟩ hstep
  refine ⟨huntouched.step hstep, ?_⟩
  unfold BookManager.step at hstep
  split at hstep
  · rename_i writes hinvoke
    cases hstep
    refine hplaced.commit fun key record hmem => ?_
    cases tx with
    | initLedger =>
        cases hinvoke
        rcases List.mem_append.mp hmem with hbooks | hlist
        · obtain ⟨book, hbook, heq⟩ := List.mem_map.mp hbooks
          cases heq
          exact .inr (List.mem_cons_of_mem _ (List.mem_map_of_mem hbook))
        · cases List.mem_singleton.mp hlist
          exact .inr List.mem_cons_self
    | userRegister args =>
        obtain ⟨name, group, rfl⟩ := userRegister_writes hinvoke
        unfold putState at hmem
        split at hmem
        · cases hmem
        · cases List.mem_singleton.mp hmem
          exact .inl ⟨_, rfl⟩
    | borrowBook args => exact absurd hinvoke (borrowBook_fails huntouched args writes)
    | returnBook args =>
        cases returnBook_writes hinvoke
        cases hmem
  · cases hstep

/-- With all functions the chaincode makes the same ledgers as without `createBook`, which
always fails, and `queryAllBooks` never finds a book: its answer has the users whose names are
from `BOOK0` on and before `BOOK999`, in the order of the names. -/
theorem catalogue_run (run : Lib.Run (∅ : Catalogue) step) :
    (∃ ledgers : Lib.Run (∅ : Ledger) BookManager.step,
      Mirrors (run.state run.length) (ledgers.state ledgers.length)) ∧
    (∀ args response, createBook (run.state run.length) args ≠ .ok response) ∧
    ∃ entries : List (String × Value),
      queryAllBooks (run.state run.length) = .ok ⟨[], some (Lib.Json.array
        (entries.map fun entry => row Value.marshal entry.1 entry.2))⟩ ∧
      (entries.Pairwise fun first second => first.1 < second.1) ∧
      ∀ name value, (name, value) ∈ entries ↔ "BOOK0" ≤ name ∧ name < "BOOK999" ∧
        ∃ user, value = .record (.user user) ∧
          (run.state run.length).get (.simple name) = some value := by
  obtain ⟨ledgers, _, _, hshows⟩ := mirrors_run run
  have hmirrors := hshows.last_related
  have hplaced := (placed_run ledgers _ (Nat.le_refl _)).2
  have hlists := lists_getStateByRange (run.state run.length) "BOOK0" "BOOK999"
  refine ⟨⟨ledgers, hmirrors⟩, createBook_fails hmirrors, _, by rw [queryAllBooks, queryAll_eq],
    hlists.ordered, fun name value => ?_⟩
  rw [hlists.mem_iff]
  refine and_congr_right fun hstart => and_congr_right fun hend => ?_
  constructor
  · intro hget
    have hstored := hget
    rw [hmirrors] at hstored
    obtain ⟨record, hrecord, rfl⟩ := Option.map_eq_some_iff.mp hstored
    rcases hplaced name record hrecord with ⟨user, rfl⟩ | hbook
    · exact ⟨user, rfl, hget⟩
    · exact absurd ⟨hstart, hend⟩ (bookKeys_out_of_range name hbook)
  · rintro ⟨_, _, hget⟩
    exact hget

end Catalogue

end BlockchainTutorial.Fabric.BookManager
