import Mathlib.Data.Nat.Digits.Lemmas

namespace BlockchainTutorial.Lib

/-! Numbers as lists of digits, the highest digit first and without leading zeros. -/

def bigEndian (base n : Nat) : List Nat :=
  (Nat.digits base n).reverse

def ofBigEndian (base : Nat) (digits : List Nat) : Nat :=
  Nat.ofDigits base digits.reverse

variable {base : Nat}

@[simp] theorem ofBigEndian_nil (base : Nat) : ofBigEndian base [] = 0 := rfl

@[simp] theorem ofBigEndian_bigEndian (base n : Nat) :
    ofBigEndian base (bigEndian base n) = n := by
  rw [ofBigEndian, bigEndian, List.reverse_reverse, Nat.ofDigits_digits]

theorem ofBigEndian_append (base : Nat) (digits digits' : List Nat) :
    ofBigEndian base (digits ++ digits') =
      base ^ digits'.length * ofBigEndian base digits + ofBigEndian base digits' := by
  rw [ofBigEndian, List.reverse_append, Nat.ofDigits_append, List.length_reverse, Nat.add_comm]
  rfl

/-- The value as it is computed digit by digit. -/
theorem foldl_eq_ofBigEndian (base : Nat) (digits : List Nat) :
    digits.foldl (fun n d => base * n + d) 0 = ofBigEndian base digits := by
  induction digits using List.reverseRecOn with
  | nil => rfl
  | append_singleton digits d ih =>
      rw [List.foldl_append, List.foldl_cons, List.foldl_nil, ih, ofBigEndian_append,
        List.length_singleton, Nat.pow_one, ofBigEndian, ofBigEndian, List.reverse_singleton,
        Nat.ofDigits_singleton]

theorem lt_of_mem_bigEndian (hbase : 1 < base) {n d : Nat} (hd : d ∈ bigEndian base n) :
    d < base :=
  Nat.digits_lt_base hbase (List.mem_reverse.mp hd)

theorem ofBigEndian_lt (hbase : 1 < base) {digits : List Nat}
    (hdigits : ∀ d ∈ digits, d < base) :
    ofBigEndian base digits < base ^ digits.length := by
  have hlt := Nat.ofDigits_lt_base_pow_length hbase fun d hd =>
    hdigits d (List.mem_reverse.mp hd)
  rwa [List.length_reverse] at hlt

/-- No shorter list of digits has the value. -/
theorem length_bigEndian_le (hbase : 1 < base) {digits : List Nat}
    (hdigits : ∀ d ∈ digits, d < base) :
    (bigEndian base (ofBigEndian base digits)).length ≤ digits.length := by
  rw [bigEndian, List.length_reverse, Nat.digits_length_le_iff hbase]
  exact ofBigEndian_lt hbase hdigits

theorem ofBigEndian_zero_cons (base : Nat) (digits : List Nat) :
    ofBigEndian base (0 :: digits) = ofBigEndian base digits := by
  rw [← List.singleton_append, ofBigEndian_append, ofBigEndian, List.reverse_singleton,
    Nat.ofDigits_singleton, Nat.mul_zero, Nat.zero_add]

/-- The digits of a number are those it was read from, without the leading zeros. -/
theorem bigEndian_ofBigEndian (hbase : 1 < base) {digits : List Nat}
    (hdigits : ∀ d ∈ digits, d < base) :
    bigEndian base (ofBigEndian base digits) = digits.dropWhile (· = 0) := by
  induction digits with
  | nil => simp [bigEndian]
  | cons d digits ih =>
      by_cases hd : d = 0
      · subst hd
        rw [ofBigEndian_zero_cons, List.dropWhile_cons_of_pos (by simp)]
        exact ih fun d hmem => hdigits d (List.mem_cons_of_mem _ hmem)
      · rw [List.dropWhile_cons_of_neg (by simpa using hd), bigEndian, ofBigEndian,
          Nat.digits_ofDigits base hbase _ fun d hmem => hdigits d (List.mem_reverse.mp hmem),
          List.reverse_reverse]
        intro hne
        rwa [List.getLast_reverse, List.head_cons]

theorem bigEndian_zero (base : Nat) : bigEndian base 0 = [] := by
  rw [bigEndian, Nat.digits_zero, List.reverse_nil]

/-- The first digit of a number is not zero. -/
theorem ne_zero_of_bigEndian_eq_cons (hbase : 1 < base) {n d : Nat} {digits : List Nat}
    (h : bigEndian base n = d :: digits) : d ≠ 0 := by
  rintro rfl
  have hlt : ∀ d ∈ bigEndian base n, d < base := fun d hd => lt_of_mem_bigEndian hbase hd
  have hdrop := bigEndian_ofBigEndian hbase hlt
  rw [ofBigEndian_bigEndian, h, List.dropWhile_cons_of_pos (by simp)] at hdrop
  have hlength := congrArg List.length hdrop
  have hle := (List.dropWhile_suffix (p := fun d : Nat => decide (d = 0)) (l := digits)).length_le
  rw [List.length_cons] at hlength
  omega

/-- Two numbers that are joined without their lengths come apart in the middle only if the
second one has as many digits as the first, or one more. -/
theorem halves_bigEndian_iff (hbase : 1 < base) (m n : Nat) :
    let joined := bigEndian base m ++ bigEndian base n
    (ofBigEndian base (joined.take (joined.length / 2)) = m ∧
        ofBigEndian base (joined.drop (joined.length / 2)) = n) ↔
      (bigEndian base m).length ≤ (bigEndian base n).length ∧
        (bigEndian base n).length ≤ (bigEndian base m).length + 1 := by
  intro joined
  have hlength : joined.length = (bigEndian base m).length + (bigEndian base n).length :=
    List.length_append
  have hdigits : ∀ d ∈ joined, d < base := by
    intro d hd
    rcases List.mem_append.mp hd with hm | hn
    · exact lt_of_mem_bigEndian hbase hm
    · exact lt_of_mem_bigEndian hbase hn
  constructor
  · rintro ⟨hm, hn⟩
    have htake := length_bigEndian_le hbase fun d hd =>
      hdigits d (List.mem_of_mem_take (i := joined.length / 2) hd)
    have hdrop := length_bigEndian_le hbase fun d hd =>
      hdigits d (List.mem_of_mem_drop (i := joined.length / 2) hd)
    rw [hm, List.length_take] at htake
    rw [hn, List.length_drop] at hdrop
    omega
  · rintro ⟨hle, hge⟩
    have hhalf : joined.length / 2 = (bigEndian base m).length := by omega
    rw [hhalf, List.take_left, List.drop_left]
    exact ⟨ofBigEndian_bigEndian base m, ofBigEndian_bigEndian base n⟩

/-- Numbers with so many digits are told apart by them. -/
theorem eq_of_digits_eq (base count : Nat) {m n : Nat} (hm : m < base ^ count)
    (hn : n < base ^ count)
    (h : ∀ k < count, m / base ^ k % base = n / base ^ k % base) : m = n := by
  induction count generalizing m n with
  | zero =>
      rw [Nat.pow_zero] at hm hn
      omega
  | succ count ih =>
      have hrest : m / base = n / base := by
        rw [Nat.pow_succ, Nat.mul_comm] at hm hn
        refine ih (Nat.div_lt_of_lt_mul hm) (Nat.div_lt_of_lt_mul hn) fun k hk => ?_
        rw [Nat.div_div_eq_div_mul, Nat.div_div_eq_div_mul, ← Nat.pow_succ']
        exact h (k + 1) (Nat.succ_lt_succ hk)
      have hlast := h 0 (Nat.succ_pos count)
      rw [Nat.pow_zero, Nat.div_one, Nat.div_one] at hlast
      rw [← Nat.div_add_mod m base, hrest, hlast, Nat.div_add_mod]

end BlockchainTutorial.Lib
