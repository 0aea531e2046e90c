import Mathlib.Data.List.Basic

namespace BlockchainTutorial.Lib

/-! Encodings that show where they end, so that values can be read back that were written
one after another. -/

universe u v w

structure Delimited (β : Type u) (α : Type v) where
  write : α → List β
  read : List β → Option (α × List β)
  read_write : ∀ a rest, read (write a ++ rest) = some (a, rest)

namespace Delimited

variable {β : Type u} {α : Type v} {γ : Type w}

/-- Nothing is left when a value was all that was written. -/
theorem read_write_self (p : Delimited β α) (a : α) :
    (p.read (p.write a)).map Prod.fst = some a := by
  have hread := p.read_write a []
  rw [List.append_nil] at hread
  rw [hread, Option.map_some]

def symbol : Delimited β β where
  write b := [b]
  read
    | [] => none
    | b :: rest => some (b, rest)
  read_write _ _ := rfl

/-- A type of the same values. -/
def imap (p : Delimited β α) (f : α → γ) (g : γ → α) (h : ∀ c, f (g c) = c) :
    Delimited β γ where
  write c := p.write (g c)
  read bs := (p.read bs).map fun out => (f out.1, out.2)
  read_write c rest := by rw [p.read_write, Option.map_some, h]

def pair (p : Delimited β α) (q : Delimited β γ) : Delimited β (α × γ) where
  write out := p.write out.1 ++ q.write out.2
  read bs := (p.read bs).bind fun first =>
    (q.read first.2).map fun second => ((first.1, second.1), second.2)
  read_write out rest := by
    rw [List.append_assoc, p.read_write, Option.bind_some, q.read_write, Option.map_some]

/-! Lists, behind their lengths. -/

def readItems (p : Delimited β α) : Nat → List β → Option (List α × List β)
  | 0, bs => some ([], bs)
  | n + 1, bs => (p.read bs).bind fun first =>
      (readItems p n first.2).map fun out => (first.1 :: out.1, out.2)

theorem readItems_write (p : Delimited β α) (items : List α) (rest : List β) :
    p.readItems items.length (items.flatMap p.write ++ rest) = some (items, rest) := by
  induction items with
  | nil => rfl
  | cons a items ih =>
      rw [List.flatMap_cons, List.append_assoc, List.length_cons, readItems, p.read_write,
        Option.bind_some, ih, Option.map_some]

def list (count : Delimited β Nat) (p : Delimited β α) : Delimited β (List α) where
  write items := count.write items.length ++ items.flatMap p.write
  read bs := (count.read bs).bind fun length => p.readItems length.1 length.2
  read_write items rest := by
    rw [List.append_assoc, count.read_write, Option.bind_some]
    exact p.readItems_write items rest

/-! Numbers, seven bits in a byte, the lowest ones first. -/

/-- All bytes but the last one are from 128 on. There is no number with more digits than its
value and one. -/
def writeDigits : Nat → Nat → List UInt8
  | 0, _ => []
  | fuel + 1, n =>
      if n < 128 then [UInt8.ofNat n]
      else UInt8.ofNat (n % 128 + 128) :: writeDigits fuel (n / 128)

def readDigits : List UInt8 → Option (Nat × List UInt8)
  | [] => none
  | b :: rest =>
      if b.toNat < 128 then some (b.toNat, rest)
      else (readDigits rest).map fun out => (b.toNat - 128 + 128 * out.1, out.2)

theorem readDigits_writeDigits {fuel n : Nat} (h : n < fuel) (rest : List UInt8) :
    readDigits (writeDigits fuel n ++ rest) = some (n, rest) := by
  induction fuel generalizing n with
  | zero => omega
  | succ fuel ih =>
      rw [writeDigits]
      by_cases hlast : n < 128
      · have hsize : n < 256 := by omega
        have hbyte : (UInt8.ofNat n).toNat = n := UInt8.toNat_ofNat_of_lt hsize
        rw [if_pos hlast, List.singleton_append, readDigits, hbyte, if_pos hlast]
      · have hsize : n % 128 + 128 < 256 := by omega
        have hbyte : (UInt8.ofNat (n % 128 + 128)).toNat = n % 128 + 128 :=
          UInt8.toNat_ofNat_of_lt hsize
        have hrest := ih (show n / 128 < fuel by omega)
        rw [if_neg hlast, List.cons_append, readDigits, hbyte, if_neg (by omega), hrest,
          Option.map_some, Nat.add_sub_cancel, Nat.mod_add_div]

def nat : Delimited UInt8 Nat where
  write n := writeDigits (n + 1) n
  read := readDigits
  read_write n rest := readDigits_writeDigits (Nat.lt_succ_self n) rest

/-- The numbers from zero on are the even ones. -/
def zigzag : Int → Nat
  | .ofNat n => 2 * n
  | .negSucc n => 2 * n + 1

def unzigzag (n : Nat) : Int :=
  if n % 2 = 0 then .ofNat (n / 2) else .negSucc (n / 2)

theorem unzigzag_zigzag (num : Int) : unzigzag (zigzag num) = num := by
  cases num with
  | ofNat n =>
      rw [zigzag, unzigzag, if_pos (by omega)]
      congr 1
      omega
  | negSucc n =>
      rw [zigzag, unzigzag, if_neg (by omega)]
      congr 1
      omega

def int : Delimited UInt8 Int :=
  nat.imap unzigzag zigzag unzigzag_zigzag

def bytes : Delimited UInt8 (List UInt8) :=
  list nat symbol

def char : Delimited UInt8 Char :=
  nat.imap Char.ofNat Char.toNat Char.ofNat_toNat

def string : Delimited UInt8 String :=
  (list nat char).imap String.ofList String.toList fun _ => String.ofList_toList

end Delimited

end BlockchainTutorial.Lib
