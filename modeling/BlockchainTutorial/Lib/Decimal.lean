import Mathlib.Data.BitVec

namespace BlockchainTutorial.Lib

/-! The decimal text of a 64-bit number with a sign, as `strconv` writes and reads it. -/

inductive NumError where
  | errSyntax
  | errRange
  deriving DecidableEq

/-- The first character that ends the reading decides between the two errors. -/
def parseUint : List Char → Nat → Except NumError Nat
  | [], n => .ok n
  | c :: cs, n =>
      if c.isDigit then
        let next := 10 * n + (c.toNat - '0'.toNat)
        if next < 2 ^ 64 then parseUint cs next else .error .errRange
      else .error .errSyntax

/-- The number is there also when there is an error. -/
def parseSigned (negative : Bool) (digits : List Char) : BitVec 64 × Option NumError :=
  if digits = [] then (0, some .errSyntax)
  else
    match parseUint digits 0 with
    | .error .errSyntax => (0, some .errSyntax)
    | .error .errRange => (if negative then .intMin 64 else .intMax 64, some .errRange)
    | .ok n =>
        if negative then
          if n ≤ 2 ^ 63 then (-BitVec.ofNat 64 n, none) else (.intMin 64, some .errRange)
        else if n < 2 ^ 63 then (BitVec.ofNat 64 n, none) else (.intMax 64, some .errRange)

def atoi (text : String) : BitVec 64 × Option NumError :=
  match text.toList with
  | [] => (0, some .errSyntax)
  | c :: cs =>
      if c = '-' then parseSigned true cs
      else if c = '+' then parseSigned false cs
      else parseSigned false (c :: cs)

def itoa (value : BitVec 64) : String :=
  value.toInt.repr

/-! What is written is read back. -/

theorem le_ofDigitChars (cs : List Char) (n : Nat) : n ≤ Nat.ofDigitChars 10 cs n := by
  induction cs generalizing n with
  | nil => simp
  | cons c cs ih =>
      rw [Nat.ofDigitChars_cons]
      have hle := ih (10 * n + (c.toNat - '0'.toNat))
      omega

theorem parseUint_eq_ok {cs : List Char} (hdigits : ∀ c ∈ cs, c.isDigit = true) {n : Nat}
    (hlt : Nat.ofDigitChars 10 cs n < 2 ^ 64) :
    parseUint cs n = .ok (Nat.ofDigitChars 10 cs n) := by
  induction cs generalizing n with
  | nil => simp [parseUint]
  | cons c cs ih =>
      rw [Nat.ofDigitChars_cons] at hlt ⊢
      have hnext := Nat.lt_of_le_of_lt (le_ofDigitChars cs _) hlt
      rw [parseUint, if_pos (hdigits c List.mem_cons_self), if_pos hnext]
      exact ih (fun other hother => hdigits other (List.mem_cons_of_mem _ hother)) hlt

theorem parseUint_repr {n : Nat} (hlt : n < 2 ^ 64) : parseUint n.repr.toList 0 = .ok n := by
  have hvalue : Nat.ofDigitChars 10 (Nat.toDigits 10 n) 0 = n := Nat.ofDigitChars_ten_toDigits
  rw [Nat.toList_repr, parseUint_eq_ok (fun c hc => Nat.isDigit_of_mem_toDigits
    (by decide) (by decide) hc) (by rwa [hvalue]), hvalue]

theorem parseSigned_repr (negative : Bool) {n : Nat} (hlt : n < 2 ^ 64) :
    parseSigned negative n.repr.toList =
      if negative then
        if n ≤ 2 ^ 63 then (-BitVec.ofNat 64 n, none) else (.intMin 64, some .errRange)
      else if n < 2 ^ 63 then (BitVec.ofNat 64 n, none) else (.intMax 64, some .errRange) := by
  have hne : n.repr.toList ≠ [] := by simp
  rw [parseSigned, if_neg hne, parseUint_repr hlt]

theorem atoi_repr {n : Nat} (hlt : n < 2 ^ 63) : atoi n.repr = (BitVec.ofNat 64 n, none) := by
  have hsigned := parseSigned_repr false (Nat.lt_trans hlt (by decide))
  rw [if_neg Bool.false_ne_true, if_pos hlt] at hsigned
  have hdigits : ∀ c ∈ n.repr.toList, c.isDigit = true := by
    rw [Nat.toList_repr]
    exact fun c hc => Nat.isDigit_of_mem_toDigits (by decide) (by decide) hc
  rw [atoi]
  cases htext : n.repr.toList with
  | nil => simp at htext
  | cons c cs =>
      rw [htext] at hsigned hdigits
      dsimp only
      have hdigit := hdigits c List.mem_cons_self
      have hminus : c ≠ '-' := by
        rintro rfl
        cases hdigit
      have hplus : c ≠ '+' := by
        rintro rfl
        cases hdigit
      rw [if_neg hminus, if_neg hplus]
      exact hsigned

theorem atoi_neg_repr {n : Nat} (hle : n ≤ 2 ^ 63) :
    atoi ("-" ++ n.repr) = (-BitVec.ofNat 64 n, none) := by
  have hsigned := parseSigned_repr true (Nat.lt_of_le_of_lt hle (by decide))
  rw [if_pos rfl, if_pos hle] at hsigned
  rw [atoi, String.toList_append, ← hsigned]
  rfl

theorem atoi_itoa (value : BitVec 64) : atoi (itoa value) = (value, none) := by
  have hlow := BitVec.le_toInt value
  have hhigh := BitVec.toInt_lt (x := value)
  have hvalue : BitVec.ofInt 64 value.toInt = value := BitVec.ofInt_toInt
  rw [itoa]
  cases htext : value.toInt with
  | ofNat n =>
      rw [htext] at hhigh hvalue
      rw [← hvalue]
      exact atoi_repr (Int.ofNat_lt.mp hhigh)
  | negSucc n =>
      rw [htext] at hlow hvalue
      rw [← hvalue]
      have hneg : BitVec.ofInt 64 (Int.negSucc n) = -BitVec.ofNat 64 (n + 1) := by
        rw [← BitVec.ofInt_natCast, ← BitVec.ofInt_neg]
        rfl
      rw [hneg]
      exact atoi_neg_repr (by omega)

end BlockchainTutorial.Lib
