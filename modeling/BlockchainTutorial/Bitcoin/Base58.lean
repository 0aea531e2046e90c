import BlockchainTutorial.Bitcoin.KeyEncoding

namespace BlockchainTutorial.Bitcoin

/-! `base58.go`. -/

def b58Alphabet : Bytes :=
  "123456789ABCDEFGHJKLMNPQRSTUVWXYZabcdefghijkmnopqrstuvwxyz".toList.map Char.toUInt8

/-- The character of a digit, which is less than 58. -/
def b58Char (digit : Nat) : UInt8 :=
  b58Alphabet.getD digit 0

/-- The loop of `Base58Encode`; a number that is not zero has no more digits than its
value. -/
def encodeLoop : Nat → Nat → Bytes
  | 0, _ => []
  | rounds + 1, x =>
      if x = 0 then [] else b58Char (x % 58) :: encodeLoop rounds (x / 58)

def base58Encode (input : Bytes) : Option Bytes :=
  let x := setBytes input
  let result := encodeLoop x x
  match input with
  | [] => none
  | first :: _ =>
      let result := if first = 0 then result ++ [b58Char 0] else result
      some result.reverse

/-- `bytes.IndexByte`. -/
def indexByte (bytes : Bytes) (c : UInt8) : Int :=
  if c ∈ bytes then bytes.idxOf c else -1

def decodeLoop (input : Bytes) : Int :=
  input.foldl (fun result b => result * 58 + indexByte b58Alphabet b) 0

/-- `big.Int.Bytes` are those of the absolute value. -/
def base58Decode (input : Bytes) : Option Bytes :=
  let decoded := bigBytes (decodeLoop input).natAbs
  match input with
  | [] => none
  | first :: _ => some (if first = b58Char 0 then 0 :: decoded else decoded)

/-! Characters and their digits. -/

theorem length_b58Alphabet : b58Alphabet.length = 58 := by
  decide

theorem nodup_b58Alphabet : b58Alphabet.Nodup := by
  decide

theorem b58Char_eq {digit : Nat} (h : digit < b58Alphabet.length) :
    b58Char digit = b58Alphabet[digit] :=
  List.getD_eq_getElem _ _ _

theorem b58Char_mem {digit : Nat} (h : digit < 58) : b58Char digit ∈ b58Alphabet := by
  rw [b58Char_eq (by rwa [length_b58Alphabet])]
  exact List.getElem_mem _

theorem indexByte_b58Char {digit : Nat} (h : digit < 58) :
    indexByte b58Alphabet (b58Char digit) = digit := by
  rw [indexByte, if_pos (b58Char_mem h), b58Char_eq (by rwa [length_b58Alphabet]),
    nodup_b58Alphabet.idxOf_getElem]

theorem b58Char_injOn {digit digit' : Nat} (h : digit < 58) (h' : digit' < 58)
    (heq : b58Char digit = b58Char digit') : digit = digit' := by
  have hindex := indexByte_b58Char h
  rw [heq, indexByte_b58Char h'] at hindex
  exact (Int.ofNat_inj.mp hindex).symm

theorem exists_b58Char {c : UInt8} (h : c ∈ b58Alphabet) : ∃ digit < 58, b58Char digit = c := by
  obtain ⟨digit, hdigit, rfl⟩ := List.getElem_of_mem h
  exact ⟨digit, by rwa [length_b58Alphabet] at hdigit, b58Char_eq hdigit⟩

/-! Encoding and decoding. -/

theorem encodeLoop_eq {rounds x : Nat} (h : x ≤ rounds) :
    encodeLoop rounds x = (Nat.digits 58 x).map b58Char := by
  induction rounds generalizing x with
  | zero =>
      obtain rfl := Nat.le_zero.mp h
      simp [encodeLoop]
  | succ rounds ih =>
      unfold encodeLoop
      by_cases hx : x = 0
      · rw [if_pos hx, hx, Nat.digits_zero, List.map_nil]
      · have hless := Nat.div_lt_self (Nat.pos_of_ne_zero hx) (by decide : 1 < 58)
        rw [if_neg hx, Nat.digits_def' (by decide) (Nat.pos_of_ne_zero hx), List.map_cons,
          ih (by omega)]

/-- The digits of a number, with a zero before them if the first byte is one. -/
def b58Digits (first : UInt8) (x : Nat) : List Nat :=
  if first = 0 then 0 :: Lib.bigEndian 58 x else Lib.bigEndian 58 x

theorem base58Encode_cons (first : UInt8) (input : Bytes) :
    base58Encode (first :: input) =
      some ((b58Digits first (setBytes (first :: input))).map b58Char) := by
  simp only [base58Encode, b58Digits, encodeLoop_eq (Nat.le_refl _), Option.some.injEq]
  split
  · rw [List.reverse_append, List.reverse_singleton, List.singleton_append, ← List.map_reverse]
    rfl
  · rw [← List.map_reverse]
    rfl

theorem decodeLoop_digits {digits : List Nat} (h : ∀ d ∈ digits, d < 58) :
    decodeLoop (digits.map b58Char) = Lib.ofBigEndian 58 digits := by
  unfold decodeLoop
  rw [← Lib.foldl_eq_ofBigEndian, List.foldl_map]
  induction digits using List.reverseRecOn with
  | nil => rfl
  | append_singleton digits d ih =>
      have hd := h d (List.mem_append_right _ (List.mem_singleton_self d))
      rw [List.foldl_append, List.foldl_append, List.foldl_cons, List.foldl_nil, List.foldl_cons,
        List.foldl_nil, ih fun d hmem => h d (List.mem_append_left _ hmem),
        indexByte_b58Char hd]
      push_cast
      rw [Int.mul_comm]

theorem base58Decode_digits {d : Nat} {digits : List Nat} (h : ∀ d' ∈ d :: digits, d' < 58) :
    base58Decode ((d :: digits).map b58Char) =
      some (if d = 0 then 0 :: bigBytes (Lib.ofBigEndian 58 digits)
        else bigBytes (Lib.ofBigEndian 58 (d :: digits))) := by
  have hvalue := decodeLoop_digits h
  rw [List.map_cons] at hvalue ⊢
  simp only [base58Decode, hvalue, Int.natAbs_natCast, Option.some.injEq]
  by_cases hd : d = 0
  · rw [if_pos hd, hd, if_pos rfl, Lib.ofBigEndian_zero_cons]
  · rw [if_neg hd, if_neg]
    intro hchar
    exact hd (b58Char_injOn (h d List.mem_cons_self) (by decide) hchar)

theorem bigBytes_setBytes (bytes : Bytes) :
    bigBytes (setBytes bytes) = bytes.dropWhile (· = 0) := by
  have hlt : ∀ d ∈ bytes.map UInt8.toNat, d < 256 := by
    intro d hd
    obtain ⟨b, _, rfl⟩ := List.mem_map.mp hd
    exact b.toNat_lt
  have hzero : ((fun d : Nat => decide (d = 0)) ∘ UInt8.toNat) = fun b : UInt8 => b = 0 := by
    funext b
    simp only [Function.comp_apply, decide_eq_decide]
    exact ⟨fun h => UInt8.toNat_inj.mp h, fun h => congrArg UInt8.toNat h⟩
  rw [setBytes_eq, bigBytes, Lib.bigEndian_ofBigEndian (by decide) hlt, List.dropWhile_map,
    List.map_map, hzero]
  exact (List.map_congr_left fun b _ => UInt8.ofNat_toNat).trans (List.map_id _)

theorem base58Decode_encode (first : UInt8) (input : Bytes) :
    (base58Encode (first :: input)).bind base58Decode =
      some (if first = 0 then 0 :: (first :: input).dropWhile (· = 0) else first :: input) := by
  have hlt : ∀ d ∈ Lib.bigEndian 58 (setBytes (first :: input)), d < 58 := fun d hd =>
    Lib.lt_of_mem_bigEndian (by decide) hd
  rw [base58Encode_cons, Option.bind_some, b58Digits]
  split
  · have hdigits : ∀ d ∈ 0 :: Lib.bigEndian 58 (setBytes (first :: input)), d < 58 := by
      intro d hd
      rcases List.mem_cons.mp hd with rfl | hd
      · decide
      · exact hlt d hd
    rw [base58Decode_digits hdigits, if_pos rfl, Lib.ofBigEndian_bigEndian, bigBytes_setBytes]
  · rename_i hfirst
    have hbytes : bigBytes (setBytes (first :: input)) = first :: input := by
      rw [bigBytes_setBytes, List.dropWhile_cons_of_neg (by simpa using hfirst)]
    cases hdigits : Lib.bigEndian 58 (setBytes (first :: input)) with
    | nil =>
        -- only the number zero has no digits
        have hvalue := Lib.ofBigEndian_bigEndian 58 (setBytes (first :: input))
        rw [hdigits, Lib.ofBigEndian_nil] at hvalue
        rw [← hvalue, bigBytes, Lib.bigEndian_zero] at hbytes
        cases hbytes
    | cons d digits =>
        rw [hdigits] at hlt
        rw [base58Decode_digits hlt,
          if_neg (Lib.ne_zero_of_bigEndian_eq_cons (by decide) hdigits), ← hdigits,
          Lib.ofBigEndian_bigEndian, hbytes]

/-- Of several leading zeros the encoding keeps one. -/
theorem roundTrip_iff {input : Bytes} (h : input ≠ []) :
    (base58Encode input).bind base58Decode = some input ↔ ¬ [0, 0] <+: input := by
  obtain ⟨first, input, rfl⟩ := List.exists_cons_of_ne_nil h
  rw [base58Decode_encode, Option.some.injEq, List.cons_prefix_cons]
  by_cases hfirst : first = 0
  · rw [if_pos hfirst, hfirst, List.dropWhile_cons_of_pos (by simp)]
    simp only [List.cons.injEq, true_and]
    cases input with
    | nil => simp
    | cons second input =>
        rw [List.cons_prefix_cons, List.dropWhile_cons]
        by_cases hsecond : second = 0
        · have hle := (List.dropWhile_suffix (p := fun b : UInt8 => decide (b = 0))
            (l := input)).length_le
          simp only [hsecond, decide_true, if_true, List.nil_prefix, and_self, not_true,
            iff_false]
          intro heq
          have hlength := congrArg List.length heq
          rw [List.length_cons] at hlength
          omega
        · simp [hsecond, eq_comm]
  · rw [if_neg hfirst]
    simp [eq_comm, hfirst]

end BlockchainTutorial.Bitcoin
