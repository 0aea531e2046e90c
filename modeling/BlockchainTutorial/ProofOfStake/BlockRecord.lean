import BlockchainTutorial.ProofOfStake.Server

namespace BlockchainTutorial.ProofOfStake

/-! What the hash of a block is made of: four texts, one after the other. -/

structure Record where
  index : Int
  timestamp : String
  bpm : Int
  prevHash : String
  deriving DecidableEq

def Record.text (record : Record) : String :=
  runeText record.index ++ record.timestamp ++ runeText record.bpm ++ record.prevHash

/-! The digits keep the bytes apart. -/

theorem hexDigit_inj {m n : Nat} (hm : m < 16) (hn : n < 16)
    (h : hexDigit m = hexDigit n) : m = n := by
  have hall : ∀ m < 16, ∀ n < 16, hexDigit m = hexDigit n → m = n := by decide
  exact hall m hm n hn h

theorem encodeToString_injective : Function.Injective encodeToString := by
  intro bytes bytes' h
  have hdigits := String.ofList_inj.mp h
  clear h
  induction bytes generalizing bytes' with
  | nil =>
      cases bytes' with
      | nil => rfl
      | cons _ _ => cases hdigits
  | cons b rest ih =>
      cases bytes' with
      | nil => cases hdigits
      | cons b' rest' =>
          simp only [List.flatMap_cons, List.cons_append, List.nil_append,
            List.cons.injEq] at hdigits
          obtain ⟨hhigh, hlow, hrest⟩ := hdigits
          have hb := b.toNat_lt
          have hb' := b'.toNat_lt
          have hhigh := hexDigit_inj (by omega) (by omega) hhigh
          have hlow := hexDigit_inj (by omega) (by omega) hlow
          rw [UInt8.toNat_inj.mp (by omega : b.toNat = b'.toNat), ih hrest]

/-! One character for an integer. -/

/-- The integers that are no character, and the character that stands for them. -/
def Replaced (n : Int) : Prop :=
  ¬ (0 ≤ n ∧ n.toNat.isValidChar) ∨ n = 0xFFFD

instance (n : Int) : Decidable (Replaced n) :=
  inferInstanceAs (Decidable (¬ (0 ≤ n ∧ n.toNat.isValidChar) ∨ n = 0xFFFD))

def SameRune (m n : Int) : Prop :=
  m = n ∨ Replaced m ∧ Replaced n

instance (m n : Int) : Decidable (SameRune m n) :=
  inferInstanceAs (Decidable (m = n ∨ Replaced m ∧ Replaced n))

def rune (n : Int) : Char :=
  if 0 ≤ n ∧ n.toNat.isValidChar then Char.ofNat n.toNat else Char.ofNat 0xFFFD

theorem runeText_eq (n : Int) : runeText n = String.singleton (rune n) := by
  unfold runeText rune
  split <;> rfl

theorem rune_of_replaced {n : Int} (h : Replaced n) : rune n = Char.ofNat 0xFFFD := by
  obtain h | rfl := h
  · exact if_neg h
  · rfl

theorem rune_toNat {n : Int} (h : ¬ Replaced n) : ((rune n).toNat : Int) = n := by
  obtain ⟨hvalid, _⟩ := not_or.mp h
  have hvalid := not_not.mp hvalid
  have hnumber : (Char.ofNat n.toNat).toNat = n.toNat := by
    rw [Char.ofNat, dif_pos hvalid.2]
    rfl
  rw [rune, if_pos hvalid, hnumber]
  exact Int.toNat_of_nonneg hvalid.1

theorem rune_ne {n : Int} (h : ¬ Replaced n) : rune n ≠ Char.ofNat 0xFFFD := by
  intro heq
  have hn := rune_toNat h
  rw [heq] at hn
  exact h (.inr hn.symm)

theorem rune_eq_iff {m n : Int} : rune m = rune n ↔ SameRune m n := by
  by_cases hm : Replaced m
  · by_cases hn : Replaced n
    · rw [rune_of_replaced hm, rune_of_replaced hn]
      exact iff_of_true rfl (.inr ⟨hm, hn⟩)
    · rw [rune_of_replaced hm]
      refine iff_of_false (rune_ne hn).symm ?_
      rintro (rfl | ⟨_, hreplaced⟩)
      · exact hn hm
      · exact hn hreplaced
  · constructor
    · intro heq
      by_cases hn : Replaced n
      · rw [rune_of_replaced hn] at heq
        exact absurd heq (rune_ne hm)
      · refine .inl ?_
        rw [← rune_toNat hm, ← rune_toNat hn, heq]
    · rintro (rfl | ⟨hreplaced, _⟩)
      · rfl
      · exact absurd hreplaced hm

/-! Which records have the same text. -/

theorem append_cons_eq_append_cons {α : Type} {a b c d : List α} {x y : α} :
    a ++ x :: b = c ++ y :: d ↔
      a = c ∧ x = y ∧ b = d ∨
        (∃ s, c = a ++ x :: s ∧ b = s ++ y :: d) ∨
          ∃ s, a = c ++ y :: s ∧ d = s ++ x :: b := by
  rw [List.append_eq_append_iff]
  constructor
  · rintro (⟨s, hc, htail⟩ | ⟨s, ha, htail⟩)
    · cases s with
      | nil =>
          obtain ⟨hxy, hbd⟩ := List.cons.inj htail
          exact .inl ⟨by rw [hc, List.append_nil], hxy, hbd⟩
      | cons z s =>
          obtain ⟨rfl, hb⟩ := List.cons.inj htail
          exact .inr (.inl ⟨s, hc, hb⟩)
    · cases s with
      | nil =>
          obtain ⟨hyx, hdb⟩ := List.cons.inj htail
          exact .inl ⟨by rw [ha, List.append_nil], hyx.symm, hdb.symm⟩
      | cons z s =>
          obtain ⟨rfl, hd⟩ := List.cons.inj htail
          exact .inr (.inr ⟨s, ha, hd⟩)
  · rintro (⟨rfl, rfl, rfl⟩ | ⟨s, rfl, rfl⟩ | ⟨s, rfl, rfl⟩)
    · exact .inl ⟨[], (List.append_nil a).symm, rfl⟩
    · exact .inl ⟨x :: s, rfl, rfl⟩
    · exact .inr ⟨y :: s, rfl, rfl⟩

/-- The text of `b` has more in front of the number than that of `a`, and the rest of it is
the same. -/
def Shifted (a b : Record) : Prop :=
  ∃ s, b.timestamp = a.timestamp ++ runeText a.bpm ++ s ∧
    a.prevHash = s ++ runeText b.bpm ++ b.prevHash

/-- Nothing marks where one text ends and the next begins. -/
def Confusable (a b : Record) : Prop :=
  SameRune a.index b.index ∧
    (a.timestamp = b.timestamp ∧ SameRune a.bpm b.bpm ∧ a.prevHash = b.prevHash ∨
      Shifted a b ∨ Shifted b a)

theorem shifted_iff {a b : Record} :
    Shifted a b ↔ ∃ s : List Char,
      b.timestamp.toList = a.timestamp.toList ++ rune a.bpm :: s ∧
        a.prevHash.toList = s ++ rune b.bpm :: b.prevHash.toList := by
  constructor
  · rintro ⟨s, htimestamp, hprev⟩
    refine ⟨s.toList, ?_, ?_⟩
    · rw [htimestamp, runeText_eq]
      simp
    · rw [hprev, runeText_eq]
      simp
  · rintro ⟨s, htimestamp, hprev⟩
    refine ⟨String.ofList s, ?_, ?_⟩
    · rw [← String.toList_inj, htimestamp, runeText_eq]
      simp
    · rw [← String.toList_inj, hprev, runeText_eq]
      simp

theorem length_lt_of_shifted {a b : Record} (h : Shifted a b) :
    a.timestamp.length < b.timestamp.length := by
  obtain ⟨s, htimestamp, _⟩ := shifted_iff.mp h
  have hlength := congrArg List.length htimestamp
  rw [List.length_append, List.length_cons, String.length_toList,
    String.length_toList] at hlength
  omega

/-- Times of the same length leave the numbers alone in doubt. -/
theorem confusable_iff_of_length_eq {a b : Record}
    (h : a.timestamp.length = b.timestamp.length) :
    Confusable a b ↔ SameRune a.index b.index ∧ a.timestamp = b.timestamp ∧
      SameRune a.bpm b.bpm ∧ a.prevHash = b.prevHash := by
  refine and_congr_right fun _ => or_iff_left ?_
  rintro (hshifted | hshifted)
  · have hlt := length_lt_of_shifted hshifted
    omega
  · have hlt := length_lt_of_shifted hshifted
    omega

theorem Record.toList_text (record : Record) :
    record.text.toList = rune record.index ::
      (record.timestamp.toList ++ rune record.bpm :: record.prevHash.toList) := by
  rw [Record.text, runeText_eq, runeText_eq]
  simp

theorem Record.text_eq_iff {a b : Record} : a.text = b.text ↔ Confusable a b := by
  rw [← String.toList_inj, Record.toList_text, Record.toList_text, List.cons.injEq,
    append_cons_eq_append_cons, rune_eq_iff, rune_eq_iff, String.toList_inj,
    String.toList_inj, ← shifted_iff, ← shifted_iff, Confusable]

variable {sha256 : String → List UInt8}

variable (sha256) in
/-- The two texts are no collision. -/
def CollisionFree (a b : Record) : Prop :=
  sha256 a.text = sha256 b.text → a.text = b.text

theorem encodeToString_text_eq_iff {a b : Record} (hfree : CollisionFree sha256 a b) :
    encodeToString (sha256 a.text) = encodeToString (sha256 b.text) ↔ Confusable a b := by
  rw [encodeToString_injective.eq_iff, ← Record.text_eq_iff]
  exact ⟨hfree, congrArg sha256⟩

def Block.record (block : Block) : Record :=
  ⟨block.index, block.timestamp, block.bpm, block.prevHash⟩

/-- All but the hash itself. -/
def Block.SameFields (block copy : Block) : Prop :=
  block.index = copy.index ∧ block.timestamp = copy.timestamp ∧ block.bpm = copy.bpm ∧
    block.prevHash = copy.prevHash ∧ block.validator = copy.validator

instance (block copy : Block) : Decidable (block.SameFields copy) :=
  inferInstanceAs (Decidable (_ ∧ _ ∧ _ ∧ _ ∧ _))

theorem calculateBlockHash_eq (block : Block) :
    calculateBlockHash sha256 block = encodeToString (sha256 block.record.text) := rfl

end BlockchainTutorial.ProofOfStake
