import Mathlib.Data.List.Basic

namespace BlockchainTutorial.Lib.Json

/-! Texts of strings and objects as `encoding/json` writes them, and how a string is read
back. -/

def hexDigits (n : Nat) : List Char :=
  [Nat.digitChar (n / 4096 % 16), Nat.digitChar (n / 256 % 16), Nat.digitChar (n / 16 % 16),
    Nat.digitChar (n % 16)]

/-- Besides the control characters, those of HTML and the two line separators have a number in
their place. -/
def Numbered (c : Char) : Prop :=
  c.toNat < 32 ∨ c = '<' ∨ c = '>' ∨ c = '&' ∨ c.toNat = 0x2028 ∨ c.toNat = 0x2029

instance (c : Char) : Decidable (Numbered c) :=
  inferInstanceAs (Decidable (_ ∨ _ ∨ _ ∨ _ ∨ _ ∨ _))

def escape (c : Char) : List Char :=
  if c = '"' then ['\\', '"']
  else if c = '\\' then ['\\', '\\']
  else if c = '\n' then ['\\', 'n']
  else if c = '\r' then ['\\', 'r']
  else if c = '\t' then ['\\', 't']
  else if Numbered c then '\\' :: 'u' :: hexDigits c.toNat
  else [c]

def quote (text : String) : List Char :=
  '"' :: (text.toList.flatMap escape ++ ['"'])

def array (values : List (List Char)) : List Char :=
  '[' :: ([','].intercalate values ++ [']'])

def object (fields : List (String × List Char)) : List Char :=
  '\x7b' :: ([','].intercalate (fields.map fun field => quote field.1 ++ ':' :: field.2) ++
    ['\x7d'])

def hexValue (c : Char) : Nat :=
  if c.isDigit then c.toNat - 48 else c.toNat - 87

def unescape (c : Char) : Option Char :=
  if c = '"' ∨ c = '\\' ∨ c = '/' then some c
  else if c = 'n' then some '\n'
  else if c = 'r' then some '\r'
  else if c = 't' then some '\t'
  else if c = 'b' then some (Char.ofNat 8)
  else if c = 'f' then some (Char.ofNat 12)
  else none

/-- The characters up to the quote that ends them, and what comes after it. Two halves of a
surrogate pair are not put together: no text that is written has them. -/
def readChars : List Char → Option (List Char × List Char)
  | [] => none
  | '"' :: rest => some ([], rest)
  | '\\' :: 'u' :: a :: b :: c :: d :: rest =>
      let number := 4096 * hexValue a + 256 * hexValue b + 16 * hexValue c + hexValue d
      (readChars rest).map fun found => (Char.ofNat number :: found.1, found.2)
  | '\\' :: c :: rest =>
      (unescape c).bind fun plain =>
        (readChars rest).map fun found => (plain :: found.1, found.2)
  | ['\\'] => none
  | c :: rest =>
      if c.toNat < 32 then none
      else (readChars rest).map fun found => (c :: found.1, found.2)

def readQuoted : List Char → Option (List Char × List Char)
  | '"' :: rest => readChars rest
  | _ => none

theorem hexValue_digitChar {n : Nat} (h : n < 16) : hexValue (Nat.digitChar n) = n := by
  have hall : ∀ n < 16, hexValue (Nat.digitChar n) = n := by decide
  exact hall n h

theorem readChars_hexDigits {c : Char} (h : c.toNat < 65536) (rest : List Char) :
    readChars ('\\' :: 'u' :: (hexDigits c.toNat ++ rest)) =
      (readChars rest).map fun found => (c :: found.1, found.2) := by
  have hdigit : ∀ n : Nat, hexValue (Nat.digitChar (n % 16)) = n % 16 := fun n =>
    hexValue_digitChar (Nat.mod_lt _ (by decide))
  have hnumber : 4096 * (c.toNat / 4096 % 16) + 256 * (c.toNat / 256 % 16) +
      16 * (c.toNat / 16 % 16) + c.toNat % 16 = c.toNat := by omega
  rw [hexDigits, List.cons_append, List.cons_append, List.cons_append, List.cons_append,
    List.nil_append, readChars, hdigit, hdigit, hdigit, hdigit, hnumber, Char.ofNat_toNat]

theorem readChars_plain {c : Char} (hquote : c ≠ '"') (hslash : c ≠ '\\')
    (hcontrol : ¬ c.toNat < 32) (rest : List Char) :
    readChars (c :: rest) = (readChars rest).map fun found => (c :: found.1, found.2) := by
  rw [readChars, if_neg hcontrol]
  · exact hquote
  · exact fun _ _ _ _ _ h _ => hslash h
  · exact fun _ _ h _ => hslash h
  · exact fun h _ => hslash h

theorem Numbered.lt {c : Char} (h : Numbered c) : c.toNat < 65536 := by
  rcases h with h | rfl | rfl | rfl | h | h
  · omega
  · decide
  · decide
  · decide
  · omega
  · omega

theorem readChars_escape (c : Char) (rest : List Char) :
    readChars (escape c ++ rest) =
      (readChars rest).map fun found => (c :: found.1, found.2) := by
  by_cases hquote : c = '"'
  · subst hquote
    rfl
  by_cases hslash : c = '\\'
  · subst hslash
    rfl
  by_cases hline : c = '\n'
  · subst hline
    rfl
  by_cases hreturn : c = '\r'
  · subst hreturn
    rfl
  by_cases htab : c = '\t'
  · subst htab
    rfl
  rw [escape, if_neg hquote, if_neg hslash, if_neg hline, if_neg hreturn, if_neg htab]
  by_cases hnumbered : Numbered c
  · rw [if_pos hnumbered]
    exact readChars_hexDigits hnumbered.lt rest
  · rw [if_neg hnumbered]
    exact readChars_plain hquote hslash (fun hcontrol => hnumbered (.inl hcontrol)) rest

theorem readQuoted_quote (text : String) (rest : List Char) :
    readQuoted (quote text ++ rest) = some (text.toList, rest) := by
  rw [quote, List.cons_append, readQuoted, List.append_assoc]
  induction text.toList with
  | nil => rfl
  | cons c cs ih =>
      rw [List.flatMap_cons, List.append_assoc, readChars_escape, ih]
      rfl

/-- A quoted text shows where it ends. -/
theorem quote_append_inj {text text' : String} {rest rest' : List Char}
    (h : quote text ++ rest = quote text' ++ rest') : text = text' ∧ rest = rest' := by
  have hread := congrArg readQuoted h
  rw [readQuoted_quote, readQuoted_quote, Option.some.injEq] at hread
  obtain ⟨htext, hrest⟩ := Prod.mk.inj hread
  exact ⟨String.toList_inj.mp htext, hrest⟩

theorem field_append_inj {name text text' : String} {rest rest' : List Char}
    (h : quote name ++ ':' :: (quote text ++ rest) =
      quote name ++ ':' :: (quote text' ++ rest')) : text = text' ∧ rest = rest' :=
  quote_append_inj (List.cons.inj (quote_append_inj h).2).2

end BlockchainTutorial.Lib.Json
