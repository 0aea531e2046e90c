import BlockchainTutorial.Lib.Positions
import BlockchainTutorial.Bitcoin.Address

namespace BlockchainTutorial.Bitcoin

/-! What `ValidateAddress` makes of any text. -/

/-- The last four bytes are the checksum of those before them. -/
def Checksummed (crypto : Crypto) (payload : Bytes) : Prop :=
  checksum crypto (payload.take (payload.length - 4)) = payload.drop (payload.length - 4)

instance (crypto : Crypto) (payload : Bytes) : Decidable (Checksummed crypto payload) :=
  inferInstanceAs (Decidable (_ = _))

/-- A version byte, the hash of a key, and their checksum. -/
def IsAddress (crypto : Crypto) (payload : Bytes) : Prop :=
  ∃ version hash sum, hash.length = 20 ∧ sum.length = 4 ∧
    sum = checksum crypto (version :: hash) ∧ payload = version :: hash ++ sum

def InAlphabet (text : Bytes) : Prop :=
  ∀ c ∈ text, c ∈ b58Alphabet

instance (text : Bytes) : Decidable (InAlphabet text) :=
  inferInstanceAs (Decidable (∀ c ∈ text, c ∈ b58Alphabet))

/-- `ValidateAddress` returns, and accepts nothing but an address. -/
structure Checked (crypto : Crypto) (text : Bytes) : Prop where
  returns : (validateAddress crypto text).isSome
  sound : validateAddress crypto text = some true →
    InAlphabet text ∧ ∃ payload, base58Decode text = some payload ∧ IsAddress crypto payload

/-- Two texts that are accepted do not stand for the same bytes. -/
def ToldApart (crypto : Crypto) (text other : Bytes) : Prop :=
  validateAddress crypto text = some true → validateAddress crypto other = some true →
    text ≠ other → base58Decode text ≠ base58Decode other

/-- The text decodes to bytes with a checksum at their end. -/
def Sums (crypto : Crypto) (text : Bytes) : Prop :=
  ∃ payload, base58Decode text = some payload ∧ Checksummed crypto payload

/-- The text decodes to five bytes at least; with a checksum at their end they are 25,
and the characters are those of the alphabet. -/
def Guarded (crypto : Crypto) (text : Bytes) : Prop :=
  ∃ payload, base58Decode text = some payload ∧ 5 ≤ payload.length ∧
    (Checksummed crypto payload → InAlphabet text ∧ payload.length = 25)

/-- The texts differ in the number of the characters `1` at their start, if at all. -/
def SameDigits (text other : Bytes) : Prop :=
  text.dropWhile (· = b58Char 0) = other.dropWhile (· = b58Char 0)

section Validate

variable {crypto : Crypto} {text other payload : Bytes}

theorem slice_eq {bytes : Bytes} {low high : Nat} (hle : low ≤ high)
    (hlength : high ≤ bytes.length) :
    slice bytes low high = some ((bytes.take high).drop low) := by
  rw [slice, if_pos ⟨Int.natCast_nonneg _, Int.ofNat_le.mpr hle, Int.ofNat_le.mpr hlength⟩,
    Int.toNat_natCast, Int.toNat_natCast]

theorem slice_of_lt {bytes : Bytes} {low high : Int} (h : high < low) :
    slice bytes low high = none :=
  if_neg fun hbounds => absurd hbounds.2.1 (Int.not_le.mpr h)

theorem validateAddress_eq (h : base58Decode text = some payload) :
    validateAddress crypto text =
      if 5 ≤ payload.length then some (decide (Checksummed crypto payload)) else none := by
  unfold validateAddress
  rw [h]
  change (slice payload (payload.length - addressChecksumLen) payload.length).bind _ = _
  by_cases hfour : 4 ≤ payload.length
  · have hlow : (payload.length - addressChecksumLen : Int) = (payload.length - 4 : Nat) := by
      simp only [addressChecksumLen]
      omega
    rw [hlow, slice_eq (Nat.sub_le _ _) (Nat.le_refl _), List.take_length, Option.bind_some]
    cases payload with
    | nil => exact absurd hfour (by decide)
    | cons first rest =>
        simp only [List.getElem?_cons_zero, Option.bind_eq_bind, Option.bind_some]
        by_cases hfive : 5 ≤ (first :: rest).length
        · have hmiddle : first :: ((first :: rest).take ((first :: rest).length - 4)).drop 1 =
              (first :: rest).take ((first :: rest).length - 4) := by
            rw [List.length_cons] at hfive ⊢
            rw [show rest.length + 1 - 4 = rest.length - 4 + 1 by omega]
            rfl
          have hslice : slice (first :: rest) 1 ((first :: rest).length - 4 : Nat) =
              some (((first :: rest).take ((first :: rest).length - 4)).drop 1) :=
            slice_eq (show 1 ≤ (first :: rest).length - 4 by omega) (Nat.sub_le _ _)
          rw [hslice, Option.bind_some, hmiddle, if_pos hfive]
          simp only [Checksummed, eq_comm]
        · rw [slice_of_lt (by omega), if_neg hfive]
          rfl
  · rw [slice, if_neg, if_neg]
    · rfl
    · omega
    · simp only [addressChecksumLen]
      omega

theorem validateAddress_eq_true (h : base58Decode text = some payload)
    (hfive : 5 ≤ payload.length) :
    validateAddress crypto text = some true ↔ Checksummed crypto payload := by
  rw [validateAddress_eq h, if_pos hfive, Option.some.injEq, decide_eq_true_iff]

theorem Checksummed.isAddress_iff (h : Checksummed crypto payload) :
    IsAddress crypto payload ↔ payload.length = 25 := by
  constructor
  · rintro ⟨version, hash, sum, hhash, hsum, _, rfl⟩
    rw [List.length_append, List.length_cons, hhash, hsum]
  · intro hlength
    obtain ⟨first, rest, rfl⟩ := List.exists_cons_of_length_pos (l := payload) (by omega)
    unfold Checksummed at h
    rw [hlength] at h
    rw [List.length_cons] at hlength
    refine ⟨first, rest.take 20, (first :: rest).drop 21, ?_, ?_, h.symm, ?_⟩
    · rw [List.length_take]
      omega
    · rw [List.length_drop, List.length_cons]
      omega
    · exact (List.take_append_drop 21 (first :: rest)).symm

theorem checked_iff (crypto : Crypto) (text : Bytes) :
    Checked crypto text ↔ Guarded crypto text := by
  constructor
  · rintro ⟨hreturns, hsound⟩
    cases hdecode : base58Decode text with
    | none =>
        rw [validateAddress, hdecode] at hreturns
        cases hreturns
    | some payload =>
        have hfive : 5 ≤ payload.length := by
          rw [validateAddress_eq hdecode] at hreturns
          by_contra hshort
          rw [if_neg hshort] at hreturns
          cases hreturns
        refine ⟨payload, hdecode, hfive, ?_⟩
        intro hsum
        obtain ⟨halphabet, payload', hpayload, haddress⟩ :=
          hsound ((validateAddress_eq_true hdecode hfive).mpr hsum)
        obtain rfl := Option.some.inj (hdecode.symm.trans hpayload)
        exact ⟨halphabet, hsum.isAddress_iff.mp haddress⟩
  · rintro ⟨payload, hdecode, hfive, hguarded⟩
    constructor
    · rw [validateAddress_eq hdecode, if_pos hfive]
      rfl
    · intro haccepted
      have hsum := (validateAddress_eq_true hdecode hfive).mp haccepted
      obtain ⟨halphabet, hlength⟩ := hguarded hsum
      exact ⟨halphabet, payload, hdecode, hsum.isAddress_iff.mpr hlength⟩

end Validate

/-! Texts of characters of the alphabet. -/

theorem dropWhile_map_b58Char {digits : List Nat} (h : ∀ d ∈ digits, d < 58) :
    (digits.map b58Char).dropWhile (· = b58Char 0) =
      (digits.dropWhile (· = 0)).map b58Char := by
  induction digits with
  | nil => rfl
  | cons d digits ih =>
      rw [List.map_cons]
      by_cases hd : d = 0
      · rw [List.dropWhile_cons_of_pos (by simp [hd]), List.dropWhile_cons_of_pos (by simp [hd])]
        exact ih fun d hmem => h d (List.mem_cons_of_mem _ hmem)
      · have hchar : b58Char d ≠ b58Char 0 := fun heq =>
          hd (b58Char_injOn (h d List.mem_cons_self) (by decide) heq)
        rw [List.dropWhile_cons_of_neg (by simpa using hchar),
          List.dropWhile_cons_of_neg (by simpa using hd), List.map_cons]

/-- A text stands for its value, and for whether it starts with a `1`. -/
theorem InAlphabet.exists_value {text : Bytes} (h : InAlphabet text) (hne : text ≠ []) :
    ∃ (zero : Bool) (value : Nat),
      base58Decode text = some (if zero then 0 :: bigBytes value else bigBytes value) ∧
      text.dropWhile (· = b58Char 0) = (Lib.bigEndian 58 value).map b58Char := by
  have hdigits : ∃ digits : List Nat, (∀ d ∈ digits, d < 58) ∧ digits.map b58Char = text := by
    clear hne
    induction text with
    | nil => exact ⟨[], by simp, rfl⟩
    | cons c text ih =>
        obtain ⟨d, hd, rfl⟩ := exists_b58Char (h c List.mem_cons_self)
        obtain ⟨digits, hdigits, rfl⟩ := ih fun c hc => h c (List.mem_cons_of_mem _ hc)
        exact ⟨d :: digits, List.forall_mem_cons.mpr ⟨hd, hdigits⟩, rfl⟩
  obtain ⟨digits, hlt, rfl⟩ := hdigits
  cases digits with
  | nil => exact absurd rfl hne
  | cons d digits =>
      refine ⟨decide (d = 0), Lib.ofBigEndian 58 (d :: digits), ?_, ?_⟩
      · rw [base58Decode_digits hlt]
        by_cases hd : d = 0
        · simp only [hd, if_true, decide_true, Lib.ofBigEndian_zero_cons]
        · simp only [hd, if_false, decide_false, Bool.false_eq_true]
      · rw [Lib.bigEndian_ofBigEndian (by decide) hlt, dropWhile_map_b58Char hlt]

theorem bigBytes_injective {value value' : Nat} (h : bigBytes value = bigBytes value') :
    value = value' := by
  have hdigits := congrArg (List.map UInt8.toNat) h
  rw [toNat_bigBytes, toNat_bigBytes] at hdigits
  rw [← Lib.ofBigEndian_bigEndian 256 value, hdigits, Lib.ofBigEndian_bigEndian]

theorem zero_cons_ne_bigBytes (bytes : Bytes) (value : Nat) : 0 :: bytes ≠ bigBytes value := by
  intro h
  have hdigits := congrArg (List.map UInt8.toNat) h
  rw [toNat_bigBytes, List.map_cons] at hdigits
  exact Lib.ne_zero_of_bigEndian_eq_cons (by decide) hdigits.symm rfl

theorem b58_map_injective {value value' : Nat}
    (h : (Lib.bigEndian 58 value).map b58Char = (Lib.bigEndian 58 value').map b58Char) :
    value = value' := by
  have hinj : ∀ d ∈ Lib.bigEndian 58 value, ∀ d' ∈ Lib.bigEndian 58 value',
      b58Char d = b58Char d' → d = d' := fun d hd d' hd' heq =>
    b58Char_injOn (Lib.lt_of_mem_bigEndian (by decide) hd)
      (Lib.lt_of_mem_bigEndian (by decide) hd') heq
  rw [← Lib.ofBigEndian_bigEndian 58 value, Lib.map_inj_on hinj h, Lib.ofBigEndian_bigEndian]

section Pair

variable {crypto : Crypto} {text other payload payload' : Bytes}

/-- Texts of the alphabet that stand for the same bytes have the same digits. -/
theorem sameDigits_of_decode (htext : InAlphabet text) (hother : InAlphabet other)
    (h : base58Decode text = some payload) (h' : base58Decode other = some payload) :
    SameDigits text other := by
  have hne : text ≠ [] := by rintro rfl; cases h
  have hne' : other ≠ [] := by rintro rfl; cases h'
  obtain ⟨zero, value, hdecode, hdigits⟩ := htext.exists_value hne
  obtain ⟨zero', value', hdecode', hdigits'⟩ := hother.exists_value hne'
  have heq : (if zero then 0 :: bigBytes value else bigBytes value) =
      if zero' then 0 :: bigBytes value' else bigBytes value' :=
    (Option.some.inj (hdecode.symm.trans h)).trans (Option.some.inj (hdecode'.symm.trans h')).symm
  have hvalue : value = value' := by
    cases zero <;> cases zero'
    · exact bigBytes_injective heq
    · exact absurd heq.symm (zero_cons_ne_bigBytes _ _)
    · exact absurd heq (zero_cons_ne_bigBytes _ _)
    · exact bigBytes_injective (List.cons.inj heq).2
  rw [SameDigits, hdigits, hdigits', hvalue]

theorem decode_eq_of_sameDigits (htext : InAlphabet text) (hother : InAlphabet other)
    (h : base58Decode text = some payload) (h' : base58Decode other = some payload')
    (hlength : payload.length = payload'.length) (hsame : SameDigits text other) :
    payload = payload' := by
  have hne : text ≠ [] := by rintro rfl; cases h
  have hne' : other ≠ [] := by rintro rfl; cases h'
  obtain ⟨zero, value, hdecode, hdigits⟩ := htext.exists_value hne
  obtain ⟨zero', value', hdecode', hdigits'⟩ := hother.exists_value hne'
  rw [SameDigits, hdigits, hdigits'] at hsame
  obtain rfl := b58_map_injective hsame
  obtain rfl := Option.some.inj (hdecode.symm.trans h)
  obtain rfl := Option.some.inj (hdecode'.symm.trans h')
  cases zero <;> cases zero'
  · rfl
  · simp at hlength
  · simp at hlength
  · rfl

/-- Where `ValidateAddress` is exact, for any two texts. -/
theorem address_check_iff (crypto : Crypto) (text other : Bytes) :
    (Checked crypto text ∧ Checked crypto other ∧ ToldApart crypto text other) ↔
      Guarded crypto text ∧ Guarded crypto other ∧
        (Sums crypto text → Sums crypto other → SameDigits text other → text = other) := by
  rw [checked_iff, checked_iff]
  refine and_congr_right fun htext => and_congr_right fun hother => ?_
  obtain ⟨payload, hdecode, hfive, hguarded⟩ := htext
  obtain ⟨payload', hdecode', hfive', hguarded'⟩ := hother
  constructor
  · rintro happart ⟨_, hsame, hsum⟩ ⟨_, hsame', hsum'⟩ hdigits
    obtain rfl := Option.some.inj (hdecode.symm.trans hsame)
    obtain rfl := Option.some.inj (hdecode'.symm.trans hsame')
    obtain ⟨halphabet, hlength⟩ := hguarded hsum
    obtain ⟨halphabet', hlength'⟩ := hguarded' hsum'
    by_contra hne
    refine happart ((validateAddress_eq_true hdecode hfive).mpr hsum)
      ((validateAddress_eq_true hdecode' hfive').mpr hsum') hne ?_
    rw [hdecode, hdecode', decode_eq_of_sameDigits halphabet halphabet' hdecode hdecode'
      (hlength.trans hlength'.symm) hdigits]
  · intro hdigits haccepted haccepted' hne heq
    have hsum := (validateAddress_eq_true hdecode hfive).mp haccepted
    have hsum' := (validateAddress_eq_true hdecode' hfive').mp haccepted'
    refine hne (hdigits ⟨payload, hdecode, hsum⟩ ⟨payload', hdecode', hsum'⟩ ?_)
    exact sameDigits_of_decode (hguarded hsum).1 (hguarded' hsum').1 hdecode
      (heq.symm.trans hdecode)

end Pair

/-- The text `abc` has three bytes, and no checksum. -/
theorem short_address_panics : ¬ ∀ (crypto : Crypto) (text other : Bytes),
    Checked crypto text ∧ Checked crypto other ∧ ToldApart crypto text other := by
  intro h
  have hreturns := (h baseCrypto ("abc".toList.map Char.toUInt8) []).1.returns
  exact absurd hreturns (by decide +kernel)

end BlockchainTutorial.Bitcoin
