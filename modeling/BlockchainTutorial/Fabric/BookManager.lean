import BlockchainTutorial.Fabric.Stub
import BlockchainTutorial.Lib.Run

namespace BlockchainTutorial.Fabric.BookManager

/-! `bookmanager.go`. What is stored is the record that the JSON text stands for. -/

inductive Group where
  | admin
  | borrower
  deriving DecidableEq

structure BookList where
  bookList : List String
  deriving DecidableEq

structure Book where
  name : String
  author : String
  price : Int
  borrower : String
  borrowHistory : List String
  deriving DecidableEq

/-- `books` is a map, or nil. -/
structure User where
  name : String
  group : Group
  books : Option (AList fun _ : String => Int)
  deriving DecidableEq

inductive Record where
  | user (value : User)
  | book (value : Book)
  | bookList (value : BookList)
  deriving DecidableEq

/-- Fields that the text does not have stay zero. -/
def Record.toUser : Record → User
  | .user value => value
  | .book value => ⟨value.name, .admin, none⟩
  | .bookList _ => ⟨"", .admin, none⟩

def Record.toBook : Record → Book
  | .book value => value
  | .user value => ⟨value.name, "", 0, "", []⟩
  | .bookList _ => ⟨"", "", 0, "", []⟩

abbrev Ledger := WorldState Record

/-- A transaction ends with an error, or with a panic of the chaincode. -/
inductive Failure where
  | error (message : String)
  | panic
  deriving DecidableEq

/-- The error of `PutState` for an empty key is not looked at. -/
def putState (key : String) (record : Record) : List (Write Record) :=
  if key = "" then [] else [(.simple key, some record)]

section Functions

variable (ledger : Ledger)

/-- The copies of the records are changed, and not written. -/
def returnBook : List String → Except Failure (List (Write Record))
  | [userKey, bookKey] =>
      match ledger.get (.simple userKey) with
      | none => .error (.error "UserInfo Json Unmarshal Error.")
      | some userAsBytes =>
          match ledger.get (.simple bookKey) with
          | none => .error (.error "Json Unmarshal Error!")
          | some bookAsBytes =>
              let userInfo := userAsBytes.toUser
              let bookInfo := bookAsBytes.toBook
              if (userInfo.books.bind fun books => books.lookup bookInfo.name).isSome then .ok []
              else .error (.error "User did not borrow the book.")
  | _ => .error (.error "Incorrect number of arguments. Expecting 2")

/-- An entry cannot be assigned in a nil map. -/
def borrowBook : List String → Except Failure (List (Write Record))
  | [userKey, bookKey] =>
      match ledger.get (.simple userKey) with
      | none => .error (.error "Json Unmarshal Error.")
      | some userAsBytes =>
          match ledger.get (.simple bookKey) with
          | none => .error (.error "Json Unmarshal Error!")
          | some bookAsBytes =>
              let userInfo := userAsBytes.toUser
              let bookInfo := bookAsBytes.toBook
              if bookInfo.borrower ≠ "" then .error (.error "book borrowed out.")
              else
                match userInfo.books with
                | none => .error .panic
                | some books =>
                    .ok (putState bookInfo.name (.book { bookInfo with
                        borrower := userKey
                        borrowHistory := bookInfo.borrowHistory ++ [userKey] }) ++
                      putState userKey (.user { userInfo with
                        books := some (books.insert bookInfo.name 1) }))
  | _ => .error (.error "Incorrect number of arguments. Expecting 2")

end Functions

def newUser (name group : String) : User :=
  if group = "ADMIN" then ⟨name, .admin, none⟩
  else if group = "BORROWER" then ⟨name, .borrower, none⟩
  else ⟨"", .admin, none⟩

def userRegister : List String → Except Failure (List (Write Record))
  | [name, group] => .ok (putState name (.user (newUser name group)))
  | _ => .error (.error "Incorrect number of arguments. Expecting 2")

def initialBooks : List Book :=
  [⟨"Compilers", "Alfred V. Aho", 100, "", []⟩,
    ⟨"Introduction to Algorithms", "Charles E. Leiserson", 100, "", []⟩,
    ⟨"Pattern Recognition and Machine Learning", "Christopher M. Bishop", 100, "", []⟩,
    ⟨"Data Structures And Algorithm Analysis In C", "Mark Allen Weiss", 50, "", []⟩,
    ⟨"Modern Operating Systems", "Andrew S. Tanenbaum", 70, "", []⟩,
    ⟨"Computer Networks", "Andrew S. Tanenbaum", 80, "", []⟩,
    ⟨"Database Design for Mere Mortals", "Michael J. Hernandez", 45, "", []⟩,
    ⟨"Computer Systems: A Programmer's Perspective",
      "David and Bryant and Randal O'Hallaron", 34, "", []⟩]

/-- The loop over the names starts at the end of the books, so that the list stays empty. -/
def initLedger : Except Failure (List (Write Record)) :=
  .ok ((initialBooks.map fun book => (Key.simple book.name, some (.book book))) ++
    [(.simple "BookList", some (.bookList ⟨[]⟩))])

inductive Transaction where
  | initLedger
  | userRegister (args : List String)
  | borrowBook (args : List String)
  | returnBook (args : List String)
  deriving Inhabited

def invoke (ledger : Ledger) : Transaction → Except Failure (List (Write Record))
  | .initLedger => initLedger
  | .userRegister args => userRegister args
  | .borrowBook args => borrowBook ledger args
  | .returnBook args => returnBook ledger args

/-- A transaction that succeeds. -/
def step (ledger : Ledger) (tx : Transaction) : Option Ledger :=
  match invoke ledger tx with
  | .ok writes => some (commit ledger writes)
  | .error _ => none

/-! What the library is to do. -/

/-- A map has a book. -/
def User.Has (user : User) (book : String) : Prop :=
  ∃ books, user.books = some books ∧ book ∈ books

/-- The user has borrowed the book, by both records. -/
def Lent (ledger : Ledger) (userKey bookKey : String) : Prop :=
  ∃ user book, ledger.get (.simple userKey) = some (.user user) ∧
    ledger.get (.simple bookKey) = some (.book book) ∧
    user.Has bookKey ∧ book.borrower = userKey

/-- The book is free again, by both records. -/
def GivenBack (ledger : Ledger) (userKey bookKey : String) : Prop :=
  ∃ user book, ledger.get (.simple userKey) = some (.user user) ∧
    ledger.get (.simple bookKey) = some (.book book) ∧
    ¬ user.Has bookKey ∧ book.borrower = ""

/-- Every registered user can borrow every free book, and return it. -/
def Lends (ledger : Ledger) : Prop :=
  ∀ userKey bookKey user book, ledger.get (.simple userKey) = some (.user user) →
    ledger.get (.simple bookKey) = some (.book book) → book.borrower = "" →
    ∃ borrowed, step ledger (.borrowBook [userKey, bookKey]) = some borrowed ∧
      Lent borrowed userKey bookKey ∧
      ∃ returned, step borrowed (.returnBook [userKey, bookKey]) = some returned ∧
        GivenBack returned userKey bookKey

/-- The record of a book and the record of a user say the same. -/
def Consistent (ledger : Ledger) : Prop :=
  ∀ userKey bookKey user book, ledger.get (.simple userKey) = some (.user user) →
    ledger.get (.simple bookKey) = some (.book book) →
    (book.borrower = userKey ↔ user.Has bookKey)

/-! What is stored. -/

/-- No user has a map, no book is lent, and no record has an empty key. -/
structure Untouched (ledger : Ledger) : Prop where
  users : ∀ key user, ledger.get key = some (.user user) → user.books = none
  books : ∀ key book, ledger.get key = some (.book book) → book.borrower = ""
  empty : ledger.get (.simple "") = none

theorem newUser_books (name group : String) : (newUser name group).books = none := by
  unfold newUser
  split
  · rfl
  · split <;> rfl

theorem toUser_books {ledger : Ledger} (h : Untouched ledger) {key : Key} {record : Record}
    (hget : ledger.get key = some record) : record.toUser.books = none := by
  cases record with
  | user value => exact h.users key value hget
  | book value => rfl
  | bookList value => rfl

/-- No loan succeeds. -/
theorem borrowBook_fails {ledger : Ledger} (h : Untouched ledger) (args : List String)
    (writes : List (Write Record)) : borrowBook ledger args ≠ .ok writes := by
  intro hok
  unfold borrowBook at hok
  split at hok
  · split at hok
    · cases hok
    · rename_i userAsBytes huser
      split at hok
      · cases hok
      · have hbooks := toUser_books h huser
        dsimp only at hok
        split at hok
        · cases hok
        · split at hok
          · cases hok
          · rename_i books hsome
            rw [hbooks] at hsome
            cases hsome
  · cases hok

/-- Nothing is written when a book is returned. -/
theorem returnBook_writes {ledger : Ledger} {args : List String}
    {writes : List (Write Record)} (h : returnBook ledger args = .ok writes) : writes = [] := by
  unfold returnBook at h
  split at h
  · split at h
    · cases h
    · split at h
      · cases h
      · dsimp only at h
        split at h
        · cases h
          rfl
        · cases h
  · cases h

theorem userRegister_writes {args : List String} {writes : List (Write Record)}
    (h : userRegister args = .ok writes) :
    ∃ name group, writes = putState name (.user (newUser name group)) := by
  unfold userRegister at h
  split at h
  · rename_i name group
    cases h
    exact ⟨name, group, rfl⟩
  · cases h

theorem Untouched.put {ledger : Ledger} (h : Untouched ledger) {key : Key} {record : Record}
    (hkey : key ≠ .simple "") (huser : ∀ user, record = .user user → user.books = none)
    (hbook : ∀ book, record = .book book → book.borrower = "") :
    Untouched (ledger.set key (some record)) where
  users other user hget := by
    by_cases heq : other = key
    · subst heq
      rw [Lib.Mapping.get_set_self] at hget
      exact huser user (Option.some.inj hget)
    · rw [Lib.Mapping.get_set_of_ne _ _ heq] at hget
      exact h.users other user hget
  books other book hget := by
    by_cases heq : other = key
    · subst heq
      rw [Lib.Mapping.get_set_self] at hget
      exact hbook book (Option.some.inj hget)
    · rw [Lib.Mapping.get_set_of_ne _ _ heq] at hget
      exact h.books other book hget
  empty := by
    rw [Lib.Mapping.get_set_of_ne _ _ (Ne.symm hkey)]
    exact h.empty

theorem Untouched.putBooks {ledger : Ledger} (h : Untouched ledger) {books : List Book}
    (hbooks : ∀ book ∈ books, book.name ≠ "" ∧ book.borrower = "") :
    Untouched (commit ledger
      (books.map fun book => (Key.simple book.name, some (.book book)))) := by
  induction books generalizing ledger with
  | nil => exact h
  | cons book books ih =>
      obtain ⟨hname, hborrower⟩ := hbooks book List.mem_cons_self
      refine ih (h.put ?_ nofun ?_) fun other hother =>
        hbooks other (List.mem_cons_of_mem _ hother)
      · simpa using hname
      · rintro _ ⟨rfl⟩
        exact hborrower

theorem Untouched.step {ledger ledger' : Ledger} (h : Untouched ledger) {tx : Transaction}
    (hstep : BookManager.step ledger tx = some ledger') : Untouched ledger' := by
  unfold BookManager.step at hstep
  split at hstep
  · rename_i writes hinvoke
    cases hstep
    cases tx with
    | initLedger =>
        cases hinvoke
        rw [commit_append]
        refine (h.putBooks (by decide)).put (by simp) nofun nofun
    | userRegister args =>
        obtain ⟨name, group, rfl⟩ := userRegister_writes hinvoke
        unfold putState
        split
        · exact h
        · rename_i hname
          refine h.put (by simpa using hname) ?_ nofun
          rintro _ ⟨rfl⟩
          exact newUser_books name group
    | borrowBook args => exact absurd hinvoke (borrowBook_fails h args writes)
    | returnBook args =>
        obtain rfl := returnBook_writes hinvoke
        exact h
  · cases hstep

theorem borrowBook_panics {ledger : Ledger} (h : Untouched ledger) {userKey bookKey : String}
    {user : User} {book : Book} (huser : ledger.get (.simple userKey) = some (.user user))
    (hbook : ledger.get (.simple bookKey) = some (.book book)) :
    borrowBook ledger [userKey, bookKey] = .error .panic := by
  have hbooks : user.books = none := h.users _ _ huser
  have hfree : book.borrower = "" := h.books _ _ hbook
  simp only [borrowBook, huser, hbook, Record.toUser, Record.toBook, hbooks, hfree]
  rfl

theorem consistent_of_untouched {ledger : Ledger} (h : Untouched ledger) :
    Consistent ledger := by
  intro userKey bookKey user book huser hbook
  constructor
  · intro hborrower
    rw [h.books _ _ hbook] at hborrower
    rw [← hborrower, h.empty] at huser
    cases huser
  · rintro ⟨books, hsome, _⟩
    rw [h.users _ _ huser] at hsome
    cases hsome

theorem lends_iff {ledger : Ledger} (h : Untouched ledger) :
    Lends ledger ∧ Consistent ledger ↔
      ¬ ∃ userKey bookKey user book, ledger.get (.simple userKey) = some (.user user) ∧
        ledger.get (.simple bookKey) = some (.book book) := by
  constructor
  · rintro ⟨hlends, _⟩ ⟨userKey, bookKey, user, book, huser, hbook⟩
    obtain ⟨borrowed, hborrow, _⟩ :=
      hlends userKey bookKey user book huser hbook (h.books _ _ hbook)
    rw [BookManager.step, invoke, borrowBook_panics h huser hbook] at hborrow
    cases hborrow
  · intro hnone
    refine ⟨?_, consistent_of_untouched h⟩
    intro userKey bookKey user book huser hbook
    exact absurd ⟨userKey, bookKey, user, book, huser, hbook⟩ hnone

theorem untouched_empty : Untouched ∅ where
  users := nofun
  books := nofun
  empty := rfl

theorem untouched_run (run : Lib.Run (∅ : Ledger) step) :
    ∀ k, k ≤ run.length → Untouched (run.state k) :=
  run.invariant untouched_empty fun _ _ _ h hstep => h.step hstep

/-- The library works as long as it has no users or no books. -/
theorem library_works_iff (run : Lib.Run (∅ : Ledger) step) :
    Lends (run.state run.length) ∧ Consistent (run.state run.length) ↔
      ¬ ∃ userKey bookKey user book,
        (run.state run.length).get (.simple userKey) = some (.user user) ∧
        (run.state run.length).get (.simple bookKey) = some (.book book) :=
  lends_iff (untouched_run run _ (Nat.le_refl _))

/-- The first loan of the first user. -/
theorem first_loan_panics :
    ∃ run : Lib.Run (∅ : Ledger) step, ¬ Lends (run.state run.length) := by
  have hexec : (Lib.exec step (∅ : Ledger)
      [.initLedger, .userRegister ["Ann", "BORROWER"]]).map (fun ledger =>
        (ledger.get (.simple "Ann"), ledger.get (.simple "Compilers"))) =
      some (some (.user ⟨"Ann", .borrower, none⟩),
        some (.book ⟨"Compilers", "Alfred V. Aho", 100, "", []⟩)) := by
    decide +kernel
  obtain ⟨run, _, hread⟩ := Lib.Run.exists_of_exec hexec
  obtain ⟨huser, hbook⟩ := Prod.mk.inj hread
  refine ⟨run, fun hlends => ?_⟩
  obtain ⟨borrowed, hborrow, _⟩ := hlends "Ann" "Compilers" _ _ huser hbook rfl
  rw [step, invoke, borrowBook_panics (untouched_run run _ (Nat.le_refl _)) huser hbook]
    at hborrow
  cases hborrow

end BlockchainTutorial.Fabric.BookManager
